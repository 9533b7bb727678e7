import ComponentEdit.Proofs.Buffer.Filing

/-!
# Chunk maps cover the base

In every reachable buffer the chunks lie side by side from the start of the base to its
end (`ChunkMap.Sound`). So every part of the base that is read for a chunk exists, and of
the two entries that are looked at to the left of a cut one is the right one
(`chunkMap_sound`).
-/

namespace ComponentEdit
set_option autoImplicit false

/-- A chunk map that covers `base`: every chunk is filed under its start, each starts
where the one before it stops, from 0 to the end, at boundaries of the base; none is
empty unless the base is, and a copied body is the stretch it stands for. -/
structure ChunkMap.Sound (base : Text) (m : ChunkMap) : Prop where
  filed : ∀ e ∈ m, e.1 = e.2.start
  ascending : m.Pairwise fun e f => e.1 < f.1
  first : m.head?.map (·.2.start) = some 0
  linked : ∀ k e f, m[k]? = some e → m[k + 1]? = some f → e.2.stop = f.2.start
  last : m.getLast?.map (·.2.stop) = some (Text.byteSize base)
  boundaries : ∀ e ∈ m,
    Text.isBoundary base e.2.start = true ∧ Text.isBoundary base e.2.stop = true
  filled : base ≠ [] → ∀ e ∈ m, e.2.start < e.2.stop
  empty : base = [] → ∃ c, m = [(0, c)] ∧ c.start = 0 ∧ c.stop = 0
  copied : ∀ e ∈ m, ∀ t, e.2.body = .copied t → t = Text.slice base e.2.start e.2.stop

namespace Tiles
variable {base : Text} {lo hi : Nat} {cs : List Chunk}

theorem linked (h : Tiles base lo cs hi) {k : Nat} {c d : Chunk} (hc : cs[k]? = some c)
    (hd : cs[k + 1]? = some d) : c.stop = d.start := by
  induction cs generalizing lo k with
  | nil => simp at hc
  | cons x cs ih =>
    obtain ⟨-, -, rest⟩ := h
    cases k with
    | succ k => exact ih rest (by simpa using hc) (by simpa using hd)
    | zero =>
      cases cs with
      | nil => simp at hd
      | cons y cs =>
        simp only [List.getElem?_cons_zero, Option.some.injEq, List.getElem?_cons_succ] at hc hd
        rw [← hc, ← hd, rest.1]

theorem last (h : Tiles base lo cs hi) (ne : cs ≠ []) : cs.getLast?.map (·.stop) = some hi := by
  induction cs generalizing lo with
  | nil => exact absurd rfl ne
  | cons c cs ih =>
    obtain ⟨-, -, rest⟩ := h
    cases cs with
    | nil => simp only [Tiles] at rest; simp [rest]
    | cons d cs => rw [List.getLast?_cons_cons]; exact ih rest (List.cons_ne_nil d cs)

end Tiles

namespace Buffer
variable {b : Buffer} {i : Nat}

theorem Tiled.chunks_ne_nil (h : b.Tiled) : b.chunks ≠ [] := by
  intro e
  by_cases ne : b.base = []
  · obtain ⟨c, hc⟩ := h.single ne
    simp [hc] at e
  · have tiles := h.tiles
    rw [e] at tiles
    have := Text.byteSize_pos ne
    simp only [Tiles] at tiles
    omega

/-- The filed chunks of a tiled buffer cover its base. -/
theorem Tiled.sound (h : b.Tiled) : b.filed.chunks.Sound b.base where
  filed e he := by
    obtain ⟨c, -, rfl⟩ := List.mem_map.1 he
    rfl
  ascending := by
    refine List.pairwise_map.2 ?_
    by_cases ne : b.base = []
    · obtain ⟨c, hc⟩ := h.single ne
      simp [hc]
    · refine h.tiles.pairwise.imp_of_mem fun hc _ le => ?_
      exact Nat.lt_of_lt_of_le ((h.tiles.placed hc).forward ne) le
  first := by
    obtain ⟨c, cs, e⟩ := List.exists_cons_of_ne_nil h.chunks_ne_nil
    have tiles := h.tiles
    rw [e] at tiles
    simp [filed, e, tiles.1]
  linked k e f he hf := by
    simp only [filed, List.getElem?_map, Option.map_eq_some_iff] at he hf
    obtain ⟨c, hc, rfl⟩ := he
    obtain ⟨d, hd, rfl⟩ := hf
    exact h.tiles.linked hc hd
  last := by
    rw [← h.tiles.last h.chunks_ne_nil]
    simp [filed, Function.comp_def]
  boundaries e he := by
    obtain ⟨c, hc, rfl⟩ := List.mem_map.1 he
    exact ⟨(h.tiles.placed hc).start_boundary, (h.tiles.placed hc).stop_boundary⟩
  filled ne e he := by
    obtain ⟨c, hc, rfl⟩ := List.mem_map.1 he
    exact (h.tiles.placed hc).forward ne
  empty e := by
    obtain ⟨c, hc⟩ := h.single e
    have tiles := h.tiles
    rw [hc, e] at tiles
    obtain ⟨start, -, stop⟩ := tiles
    exact ⟨c, by simp [filed, hc, Chunk.file, start], start, stop⟩
  copied e he t ht := by
    obtain ⟨c, hc, rfl⟩ := List.mem_map.1 he
    exact (h.tiles.placed hc).copied t ht

/-- After a cut behind the start exactly one chunk stops there, and it is found. -/
theorem Tiled.stopping_of_cut (h : b.Tiled) (pos : 0 < i) {b' : Buffer} (hc : b.cut i = .ok b') :
    ∃ c, b'.filed.chunks.filter (·.2.stop == i) = [c] ∧ b'.filed.chunks.stoppingAt? i = some c := by
  obtain ⟨tiled, base, parted, -⟩ := h.cut hc
  have le := Text.le_byteSize_of_isBoundary (h.cut_eq_ok.1 hc).1
  have ne : b'.base ≠ [] := by
    rw [base]
    rintro e
    rw [e, Text.byteSize_nil] at le
    omega
  obtain ⟨c, hc', rfl⟩ := tiled.exists_stop parted pos (by rw [base]; exact le)
  refine ⟨c.file, ?_, stoppingAt?_filed tiled hc'⟩
  obtain ⟨pre, post, e⟩ := List.append_of_mem hc'
  have tiles := tiled.tiles
  rw [e] at tiles
  have front : ∀ d ∈ pre, d.stop ≠ c.stop := by
    intro d hd
    have := (tiles.around.1.within hd).2
    have := tiles.around.2.1.forward ne
    omega
  have behind : ∀ d ∈ post, d.stop ≠ c.stop := by
    intro d hd
    have := tiles.stop_le_of_behind d hd
    have := (tiles.around.2.2.placed hd).forward ne
    omega
  have front' : (pre.map Chunk.file).filter (·.2.stop == c.stop) = [] := by
    simpa [List.filter_eq_nil_iff] using front
  have behind' : (post.map Chunk.file).filter (·.2.stop == c.stop) = [] := by
    simpa [List.filter_eq_nil_iff] using behind
  simp [filed, e, front', behind']

end Buffer

/-- The chunk map of every reachable buffer covers the base, so a chunk can be read from the
base, whole and in two parts cut at a checked offset; after a cut behind the start one chunk
stops there and is found. In the order of its keys it is the buffer's list of chunks. -/
theorem chunkMap_sound (t : Text) (edits : List Edit) :
    let b := (FiledBuffer.ofText t).run edits
    b.base = t ∧ b.chunks.Sound t ∧
    (∀ e ∈ b.chunks, (Text.slice? t e.2.start e.2.stop).isSome) ∧
    (∀ i, b.unfiled.checkIndex i = .ok () → ∀ e ∈ b.chunks, e.2.crosses i = true →
      (Text.slice? t e.2.start i).isSome ∧ (Text.slice? t i e.2.stop).isSome) ∧
    (∀ i b', 0 < i → b.split i = .ok b' →
      ∃ e, b'.chunks.filter (·.2.stop == i) = [e] ∧ b'.chunks.stoppingAt? i = some e) ∧
    b.unfiled = (Buffer.ofText t).run edits := by
  intro b
  have tiled := (Buffer.tiled_ofText t).run edits
  have run : b = ((Buffer.ofText t).run edits).filed :=
    Buffer.run_filed (Buffer.tiled_ofText t) edits
  have base : ((Buffer.ofText t).run edits).base = t := Buffer.run_base _ edits
  have sound := tiled.sound
  rw [base] at sound
  have read : ∀ {i j : Nat}, Text.isBoundary t i = true → Text.isBoundary t j = true → i ≤ j →
      (Text.slice? t i j).isSome := fun hi hj le =>
    Option.isSome_iff_exists.2 ⟨_, Text.slice?_eq_some_iff.2 ⟨le, hi, hj, rfl⟩⟩
  rw [run]
  refine ⟨base, sound, ?_, ?_, ?_, Buffer.unfiled_filed _⟩
  · intro e he
    obtain ⟨c, hc, rfl⟩ := List.mem_map.1 he
    have bounds := sound.boundaries c.file he
    exact read bounds.1 bounds.2 (tiled.tiles.placed hc).le
  · intro i hi e he cross
    rw [Buffer.unfiled_filed, Buffer.checkIndex_eq_ok, base] at hi
    have lt := Chunk.crosses_iff.1 cross
    have bounds := sound.boundaries e he
    exact ⟨read bounds.1 hi (by omega), read hi bounds.2 (by omega)⟩
  · intro i b' pos hs
    rw [Buffer.split_filed tiled] at hs
    cases hc : ((Buffer.ofText t).run edits).cut i with
    | error e => rw [hc] at hs; cases hs
    | ok c =>
      rw [hc] at hs
      cases hs
      exact tiled.stopping_of_cut pos hc


end ComponentEdit
