import ComponentEdit.Proofs.Buffer.ChunkMap

/-!
# Filing the chunks of a buffer

A buffer with its chunks filed under their starts is edited as the buffer is. Each
elementary change finds in the map what it needs (`split_filed`, `attachLeft_filed`,
`attachRight_filed`, `replaceRange_filed`), so the two stay in step through every
edit (`apply_filed`) and every run (`run_filed`).
-/

namespace ComponentEdit
set_option autoImplicit false

namespace Buffer

/-- The buffer with its chunks filed under their starts. -/
def filed (b : Buffer) : FiledBuffer :=
  { base := b.base, filename := b.filename, front := b.front, back := b.back,
    chunks := b.chunks.map Chunk.file }

variable {b : Buffer} {i : Nat}

@[simp] theorem unfiled_filed (b : Buffer) : b.filed.unfiled = b := by
  simp [filed, FiledBuffer.unfiled, Function.comp_def]

theorem has_filed (b : Buffer) (i : Nat) : b.filed.chunks.has i = b.chunks.any (·.start == i) := by
  simp [filed, ChunkMap.has, Function.comp_def]

/-- Reading the parts of a chunk from the base is cutting its body. -/
theorem split_eq {base : Text} {c : Chunk} (h : c.Placed base) (hi : Text.isBoundary base i = true)
    (cross : c.crosses i = true) : c.split base i = (c.left i, c.right i) := by
  have lt := Chunk.crosses_iff.1 cross
  cases hb : c.body with
  | copied t =>
    have left := Text.takeBytes_slice h.start_boundary hi h.stop_boundary (by omega) (by omega)
    have right := Text.dropBytes_slice h.start_boundary hi h.stop_boundary (by omega) (by omega)
    simp [Chunk.split, Chunk.left, Chunk.right, Body.left, Body.right, hb, h.copied t hb, left, right]
  | replaced t named =>
    simp [Chunk.split, Chunk.left, Chunk.right, Body.left, Body.right, hb]

/-- A list of chunks of which one is cut. -/
theorem flatMap_divide_at {pre post : List Chunk} {c : Chunk} (cross : c.crosses i = true)
    (front : ∀ d ∈ pre, d.crosses i = false) (behind : ∀ d ∈ post, d.crosses i = false) :
    (pre ++ c :: post).flatMap (·.divide i) = (pre ++ [c.left i]) ++ c.right i :: post := by
  have own : c.divide i = [c.left i, c.right i] := by simp [Chunk.divide, cross]
  rw [List.flatMap_append, List.flatMap_cons, Chunk.flatMap_divide front,
    Chunk.flatMap_divide behind, own]
  simp

/-- Filing is compatible with a cut between chunks. -/
theorem split_filed_of_not_crosses (hi : Text.isBoundary b.base i = true)
    (apart : b.Parted i) : b.filed.split i = .ok b.filed := by
  have ok : b.filed.unfiled.checkIndex i = .ok () := by
    rw [unfiled_filed]
    exact checkIndex_eq_ok.2 hi
  unfold FiledBuffer.split
  simp only [ok, bind, Except.bind]
  split
  · rfl
  · cases hl : b.filed.chunks.before? i with
    | none => rfl
    | some e =>
      have mem := List.mem_of_getLast? hl
      simp only [filed, List.mem_filter, List.mem_map, decide_eq_true_eq] at mem
      obtain ⟨⟨c, hc, rfl⟩, lt⟩ := mem
      have le : c.stop ≤ i := by
        have := apart c hc
        simp only [Chunk.crosses, Bool.and_eq_false_iff, decide_eq_false_iff_not] at this
        have : c.start < i := lt
        omega
      simp [le]

/-- Filing is compatible with a cut through a chunk. -/
theorem split_filed_of_crosses (h : b.Tiled) (ne : b.base ≠ [])
    (hi : Text.isBoundary b.base i = true) {c : Chunk} (hc : c ∈ b.chunks)
    (cross : c.crosses i = true) :
    b.filed.split i = if c.body.isDivisible then .ok (b.divide i).filed
      else .error (b.splitError c i) := by
  obtain ⟨pre, post, e⟩ := List.append_of_mem hc
  have tiles := h.tiles
  rw [e] at tiles
  have lt := Chunk.crosses_iff.1 cross
  have front := tiles.start_lt_of_front ne
  have front_i : ∀ d ∈ pre, d.start < i := fun d hd => Nat.lt_trans (front d hd) lt.1
  have behind_i : ∀ d ∈ post, i < d.start := fun d hd =>
    Nat.lt_of_lt_of_le lt.2 (tiles.stop_le_of_behind d hd)
  have ok : b.filed.unfiled.checkIndex i = .ok () := by
    rw [unfiled_filed]
    exact checkIndex_eq_ok.2 hi
  have absent : b.filed.chunks.has i = false := by
    rw [has_filed, e, List.any_eq_false]
    simp only [List.mem_append, List.mem_cons, beq_iff_eq]
    rintro d (hd | rfl | hd)
    · exact Nat.ne_of_lt (front_i d hd)
    · exact Nat.ne_of_lt lt.1
    · exact Nat.ne_of_gt (behind_i d hd)
  have last : b.filed.chunks.before? i = some (c.start, c) := by
    rw [filed, e]
    exact before?_at front_i lt.1 behind_i
  have divided : (b.divide i).chunks = (pre ++ [c.left i]) ++ c.right i :: post := by
    rw [divide, e]
    refine flatMap_divide_at cross (fun d hd => ?_) fun d hd => ?_
    · have := (tiles.around.1.within hd).2
      simp [Chunk.crosses]; omega
    · have := behind_i d hd
      simp [Chunk.crosses]; omega
  have stored : (b.filed.chunks.modify (· == c.start) fun _ => c.left i).insert i (c.right i) =
      (b.divide i).filed.chunks := by
    rw [filed, filed, divided, e]
    exact file_parts front lt.1 behind_i
  unfold FiledBuffer.split
  simp only [ok, bind, Except.bind, absent, last, Bool.false_eq_true, if_false, Nat.not_le.mpr lt.2]
  have parts : c.split b.filed.base i = (c.left i, c.right i) := split_eq (h.tiles.placed hc) hi cross
  rw [parts, stored, unfiled_filed]
  rfl

/-- Filing is compatible with cuts. -/
theorem split_filed (h : b.Tiled) (i : Nat) : b.filed.split i = (b.cut i).map filed := by
  cases hi : Text.isBoundary b.base i with
  | false =>
    cases hc : b.checkIndex i with
    | ok u => simp [checkIndex_eq_ok.1 hc] at hi
    | error e => simp [FiledBuffer.split, cut, hc, bind, Except.bind, Except.map]
  | true =>
    by_cases hx : ∃ c ∈ b.chunks, c.crosses i = true
    · obtain ⟨c, hc, cross⟩ := hx
      have ne : b.base ≠ [] := h.base_ne_nil_of_crosses hc cross
      rw [split_filed_of_crosses h ne hi hc cross]
      cases hd : c.body.isDivisible with
      | true =>
        rw [cut_of_divisible hi fun d hd' cross' => h.eq_of_crosses hc hd' cross cross' ▸ hd]
        rfl
      | false => rw [h.cut_of_not_divisible hi hc cross hd]; rfl
    · have apart : b.Parted i := by simpa [Parted] using hx
      rw [split_filed_of_not_crosses hi apart, cut_of_divisible hi, divide_eq_self apart]
      · rfl
      · intro c hc cross
        simp [apart c hc] at cross

/-- Looking at the last two entries up to an offset finds the chunk that stops there. -/
theorem stoppingAt?_filed (h : b.Tiled) {c : Chunk} (hc : c ∈ b.chunks) :
    b.filed.chunks.stoppingAt? c.stop = some c.file := by
  have le := (h.tiles.placed hc).le
  by_cases ne : b.base = []
  · obtain ⟨x, hx⟩ := h.single ne
    rw [hx, List.mem_singleton] at hc
    subst hc
    simp [ChunkMap.stoppingAt?, filed, hx, le]
  · obtain ⟨pre, post, e⟩ := List.append_of_mem hc
    have tiles := h.tiles
    rw [e] at tiles
    have front : ∀ d ∈ pre, d.start ≤ c.stop := fun d hd =>
      Nat.le_trans (Nat.le_of_lt (tiles.start_lt_of_front ne d hd)) le
    have upto := filter_file_self pre (fun j => decide (j ≤ c.stop)) (by simpa using front)
    have step : b.filed.chunks.filter (fun e => decide (e.1 ≤ c.stop)) = pre.map Chunk.file ++
        c.file :: (post.map Chunk.file).filter (fun e => decide (e.1 ≤ c.stop)) := by
      simp [filed, e, upto, le]
    -- behind `c` only the next chunk is filed up to its stop, and that one stops later
    rw [ChunkMap.stoppingAt?, step]
    cases post with
    | nil => simp
    | cons d ds =>
      obtain ⟨-, -, start, placed, rest⟩ := tiles.around
      have forward := placed.forward ne
      have beyond := filter_file_nil ds (fun j => decide (j ≤ c.stop)) (by
        intro x hx
        have := (rest.within hx).1
        simp only [decide_eq_false_iff_not]
        omega)
      have later : (d.stop == c.stop) = false := by rw [beq_eq_false_iff_ne]; omega
      simp only [List.map_cons, List.filter_cons, beyond]
      simp [start, later]

theorem stoppingAt?_filed_none (none : ∀ c ∈ b.chunks, c.stop ≠ i) :
    b.filed.chunks.stoppingAt? i = .none := by
  rw [ChunkMap.stoppingAt?, List.find?_eq_none]
  intro e he
  have mem := List.mem_of_mem_take he
  simp only [List.mem_reverse, List.mem_filter, filed, List.mem_map] at mem
  obtain ⟨⟨c, hc, rfl⟩, -⟩ := mem
  simpa using none c hc

/-- Filing a buffer whose chunks have changed in place. -/
theorem filed_map (b : Buffer) {f : Chunk → Chunk} (hf : ∀ c, (f c).start = c.start) :
    filed { b with chunks := b.chunks.map f } =
      { b.filed with chunks := b.chunks.map fun c => (c.start, f c) } := by
  simp [filed, Function.comp_def, Chunk.file, hf]

theorem attachLeft_filed (h : b.Tiled) (i : Nat) (f : Text → Text) :
    b.filed.attachLeft i f = (b.attachLeft i f).filed := by
  unfold FiledBuffer.attachLeft attachLeft
  by_cases hx : ∃ c ∈ b.chunks, c.stop = i
  · obtain ⟨c, hc, rfl⟩ := hx
    have any : b.chunks.any (·.stop == c.stop) = true := List.any_eq_true.2 ⟨c, hc, by simp⟩
    have same : ∀ d ∈ b.chunks, (d.start == c.start) = (d.stop == c.stop) := by
      intro d hd
      rw [Bool.eq_iff_iff, beq_iff_eq, beq_iff_eq]
      exact ⟨fun e => by rw [h.eq_of_start_eq hd hc e], fun e => by rw [h.eq_of_stop_eq hd hc e]⟩
    have modified : b.filed.chunks.modify (· == c.start) (fun c => { c with after := f c.after }) =
        b.chunks.map fun d => (d.start, if d.stop == c.stop then { d with after := f d.after } else d) := by
      rw [filed, modify_file]
      exact List.map_congr_left fun d hd => by rw [same d hd]
    rw [stoppingAt?_filed h hc]
    simp only [Chunk.file, any, if_true]
    rw [modified, filed_map]
    intro d
    split <;> rfl
  · have none : ∀ c ∈ b.chunks, c.stop ≠ i := by simpa using hx
    have any : b.chunks.any (·.stop == i) = false := by simpa using none
    rw [stoppingAt?_filed_none none]
    simp [any, filed]

theorem attachRight_filed (b : Buffer) (i : Nat) (f : Text → Text) :
    b.filed.attachRight i f = (b.attachRight i f).filed := by
  unfold FiledBuffer.attachRight attachRight
  rw [has_filed]
  split
  · rw [filed_map, filed, modify_file]
    intro d
    split <;> rfl
  · rfl

/-- The first entry of a range that starts with a chunk is that chunk. -/
theorem first?_filed (h : b.Tiled) (ne : b.base ≠ []) {c : Chunk} (hc : c ∈ b.chunks) {stop : Nat}
    (lt : c.start < stop) : b.filed.chunks.first? c.start stop = some c.file := by
  obtain ⟨pre, post, e⟩ := List.append_of_mem hc
  have tiles := h.tiles
  rw [e] at tiles
  have front : (pre.map Chunk.file).find? (fun e => ChunkMap.inRange c.start stop e.1) = none := by
    rw [List.find?_eq_none]
    intro e he
    obtain ⟨d, hd, rfl⟩ := List.mem_map.1 he
    have := tiles.start_lt_of_front ne d hd
    rw [ChunkMap.inRange_iff, Chunk.file_fst]
    omega
  have own : ChunkMap.inRange c.start stop c.file.1 = true :=
    ChunkMap.inRange_iff.2 ⟨Nat.le_refl _, lt⟩
  simp only [ChunkMap.first?, filed, e, List.map_append, List.map_cons, List.find?_append, front,
    List.find?_cons, own, Option.none_or]

theorem replaceRange_filed (h : b.Tiled) (ne : b.base ≠ []) {start stop : Nat} (lt : start < stop)
    (hs : ∃ c ∈ b.chunks, c.start = start) (content : Text) (options : OverwriteMode) :
    b.filed.replaceRange start stop content options =
      (b.replaceChunks start stop content options).filed := by
  obtain ⟨c, hc, rfl⟩ := hs
  unfold FiledBuffer.replaceRange replaceChunks
  rw [first?_filed h ne hc lt, filed_map]
  · simp only [Chunk.file, filed, ChunkMap.modify, List.map_map]
    congr 1
    refine List.map_congr_left fun d _ => ?_
    simp only [Function.comp_apply, Chunk.file]
    by_cases own : d.start = c.start
    · simp [own]
    · by_cases inside : c.start < d.start ∧ d.start < stop
      · have : ChunkMap.inRange c.start stop d.start = true := ChunkMap.inRange_iff.2 (by omega)
        simp [own, inside, this]
      · have : ¬ ChunkMap.inRange c.start stop d.start = true := by
          rw [ChunkMap.inRange_iff]
          omega
        simp [own, inside, this]
  · intro d
    split
    · rfl
    · split <;> rfl

theorem blankRange_filed (b : Buffer) {start stop : Nat} (lt : start < stop) :
    b.filed.blankRange start stop = (b.replaceChunks start stop [] {}).filed := by
  unfold FiledBuffer.blankRange replaceChunks
  rw [filed_map, filed, modify_file]
  · congr 1
    refine List.map_congr_left fun d _ => ?_
    by_cases own : d.start = start
    · have : ChunkMap.inRange start stop start = true := ChunkMap.inRange_iff.2 (by omega)
      simp [own, this, Chunk.blank]
    · by_cases inside : start < d.start ∧ d.start < stop
      · have : ChunkMap.inRange start stop d.start = true := ChunkMap.inRange_iff.2 (by omega)
        simp [own, inside, this]
      · have : ¬ ChunkMap.inRange start stop d.start = true := by
          rw [ChunkMap.inRange_iff]
          omega
        simp [own, inside, this]
  · intro d
    split
    · rfl
    · split <;> rfl

theorem atSplit_filed (h : b.Tiled) {next : Buffer → Attempt Buffer}
    {next' : FiledBuffer → Attempt FiledBuffer}
    (hn : ∀ b', b.cut i = .ok b' → next' b'.filed = (next b').map filed) :
    b.filed.atSplit i next' = (b.atCut i next).map filed := by
  unfold FiledBuffer.atSplit atCut
  rw [split_filed h]
  cases hc : b.cut i with
  | ok b' => exact hn b' hc
  | error e => rfl

/-- Cuts at the two ends of a range leave a chunk that starts with the range. -/
theorem exists_start_of_cuts (h : b.Tiled) {start stop : Nat} {b₁ b₂ : Buffer}
    (range : b.checkRange start stop = .ok ()) (lt : start < stop) (h₁ : b.cut start = .ok b₁)
    (h₂ : b₁.cut stop = .ok b₂) : b₂.Tiled ∧ b₂.base ≠ [] ∧ ∃ c ∈ b₂.chunks, c.start = start := by
  obtain ⟨tiled₁, base₁, parted₁, -⟩ := h.cut h₁
  obtain ⟨tiled₂, base₂, -, keep⟩ := tiled₁.cut h₂
  have le := Text.le_byteSize_of_isBoundary (checkRange_eq_ok.1 range).2.2
  have lt' : start < Text.byteSize b₂.base := by rw [base₂, base₁]; omega
  refine ⟨tiled₂, ?_, tiled₂.exists_start (keep _ parted₁) lt'⟩
  intro e
  rw [e, Text.byteSize_nil] at lt'
  omega

/-- Filing is compatible with every edit, and with its refusal. -/
theorem apply_filed (h : b.Tiled) (e : Edit) : b.filed.apply e = (e.apply b).map filed := by
  cases e with
  | append content => rfl
  | prepend content => rfl
  | appendLeft i content =>
    exact atSplit_filed h fun b' hc => by rw [attachLeft_filed (h.cut hc).1]; rfl
  | appendRight i content => exact atSplit_filed h fun b' _ => by rw [attachRight_filed]; rfl
  | prependLeft i content =>
    exact atSplit_filed h fun b' hc => by rw [attachLeft_filed (h.cut hc).1]; rfl
  | prependRight i content => exact atSplit_filed h fun b' _ => by rw [attachRight_filed]; rfl
  | overwrite start stop content options =>
    simp only [FiledBuffer.apply, Edit.apply, overwrite, unfiled_filed]
    cases range : b.checkRange start stop with
    | error e => rfl
    | ok u =>
      by_cases eq : start = stop
      · simp [eq, Attempt.map, Attempt.refused]
      · simp only [eq, if_false]
        have lt : start < stop := by have := (checkRange_eq_ok.1 range).1; omega
        refine atSplit_filed h fun b₁ h₁ => atSplit_filed (h.cut h₁).1 fun b₂ h₂ => ?_
        obtain ⟨tiled, ne, hs⟩ := exists_start_of_cuts h range lt h₁ h₂
        rw [replaceRange_filed tiled ne lt hs]
        rfl
  | remove start stop =>
    simp only [FiledBuffer.apply, Edit.apply, remove, unfiled_filed]
    cases range : b.checkRange start stop with
    | error e => rfl
    | ok u =>
      by_cases eq : start = stop
      · simp [eq, Attempt.map, Attempt.done]
      · simp only [eq, if_false]
        have lt : start < stop := by have := (checkRange_eq_ok.1 range).1; omega
        refine atSplit_filed h fun b₁ h₁ => atSplit_filed (h.cut h₁).1 fun b₂ h₂ => ?_
        rw [blankRange_filed b₂ lt]
        rfl

/-- Filing is compatible with every run. -/
theorem run_filed (h : b.Tiled) (edits : List Edit) : b.filed.run edits = (b.run edits).filed := by
  induction edits generalizing b with
  | nil => rfl
  | cons e edits ih =>
    have step : (b.filed.apply e).left = (e.apply b).left.filed := by rw [apply_filed h e]; rfl
    calc b.filed.run (e :: edits) = (b.filed.apply e).left.run edits := rfl
      _ = (e.apply b).left.filed.run edits := by rw [step]
      _ = ((e.apply b).left.run edits).filed := ih (h.apply e)

end Buffer

end ComponentEdit
