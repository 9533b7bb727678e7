import ComponentEdit.Buffer.Edit
import ComponentEdit.Proofs.Text.Offsets

/-!
# The chunks tile the base

`Tiles base lo cs hi` says that the chunks `cs` cover the base from `lo` to `hi`
in order, each between two boundaries, and that a copied body is the stretch it
stands for. `Buffer.Tiled` is the invariant of buffers: the chunks tile the whole
base, and an empty base has one chunk. Elementary changes keep it (`Tiles.divide`,
`Tiles.map`), so every edit does, accepted or refused (`Tiled.apply`), and with it
every run (`tiled_run`).
-/

namespace ComponentEdit
set_option autoImplicit false

namespace Chunk

/-- A chunk stands for a stretch of `base` between two boundaries, which is empty
only if the base is; a copied body is that stretch. -/
structure Placed (base : Text) (c : Chunk) : Prop where
  start_boundary : Text.isBoundary base c.start = true
  stop_boundary : Text.isBoundary base c.stop = true
  forward : base ≠ [] → c.start < c.stop
  copied : ∀ t, c.body = .copied t → t = Text.slice base c.start c.stop

theorem Placed.le {base : Text} {c : Chunk} (h : c.Placed base) : c.start ≤ c.stop := by
  by_cases e : base = []
  · have := Text.le_byteSize_of_isBoundary h.start_boundary
    rw [e, Text.byteSize_nil] at this
    omega
  · exact Nat.le_of_lt (h.forward e)

/-- The base around a copied body. -/
theorem Placed.exists_around {base : Text} {c : Chunk} (h : c.Placed base) {t : Text}
    (body : c.body = .copied t) : ∃ p q, base = p ++ (t ++ q) ∧ c.start = Text.byteSize p ∧
      c.stop = Text.byteSize p + Text.byteSize t := by
  obtain ⟨p, m, q, split, lo, hi⟩ := Text.exists_parts h.start_boundary h.stop_boundary h.le
  obtain rfl : t = m := by rw [h.copied _ body, split, lo, hi, Text.slice_parts]
  exact ⟨p, q, split, lo, hi⟩

/-- A copied body is cut in the base where it is cut in the rendered text. -/
theorem Placed.boundary_of_copied {base : Text} {c : Chunk} (h : c.Placed base)
    {s r : Text} (body : c.body = .copied (s ++ r)) :
    Text.isBoundary base (c.start + Text.byteSize s) = true := by
  obtain ⟨p, q, split, lo, -⟩ := h.exists_around body
  exact Text.isBoundary_iff.2 ⟨p ++ s, r ++ q, by simp [split], by simp [lo]⟩

theorem crosses_iff {c : Chunk} {i : Nat} : c.crosses i = true ↔ c.start < i ∧ i < c.stop := by
  simp [crosses]

/-- Chunks that do not lie across an offset are not divided there. -/
theorem flatMap_divide {cs : List Chunk} {i : Nat} (h : ∀ c ∈ cs, c.crosses i = false) :
    cs.flatMap (·.divide i) = cs := by
  induction cs with
  | nil => rfl
  | cons c cs ih =>
    rw [List.flatMap_cons, ih fun d hd => h d (List.mem_cons_of_mem _ hd)]
    simp [divide, h c List.mem_cons_self]

theorem not_crosses_of_mem_divide {c d : Chunk} {i : Nat} (hd : d ∈ c.divide i) :
    d.crosses i = false := by
  unfold divide at hd
  split at hd
  · simp only [List.mem_cons, List.not_mem_nil, or_false] at hd
    rcases hd with rfl | rfl <;> simp [crosses, left, right]
  · rename_i h
    rw [List.mem_singleton.1 hd]
    simpa using h

/-- The parts of a chunk lie across no offset that it did not lie across. -/
theorem crosses_of_mem_divide {c d : Chunk} {i j : Nat} (hd : d ∈ c.divide j)
    (h : d.crosses i = true) : c.crosses i = true := by
  unfold divide at hd
  split at hd
  · rename_i hj
    have lt := crosses_iff.1 hj
    rw [crosses_iff] at h ⊢
    simp only [List.mem_cons, List.not_mem_nil, or_false] at hd
    rcases hd with rfl | rfl <;> simp only [left, right] at h <;> omega
  · rw [List.mem_singleton.1 hd] at h
    exact h

/-- The two parts of a chunk that is cut at a boundary are placed. -/
theorem Placed.parts {base : Text} {c : Chunk} {i : Nat} (h : c.Placed base)
    (hi : Text.isBoundary base i = true) (hc : c.crosses i = true) :
    (c.left i).Placed base ∧ (c.right i).Placed base := by
  obtain ⟨lo, hi'⟩ := crosses_iff.1 hc
  constructor
  · refine ⟨h.start_boundary, hi, fun _ => lo, ?_⟩
    intro t ht
    cases hb : c.body with
    | copied u =>
      simp only [left, Body.left, hb, Body.copied.injEq] at ht
      rw [← ht, h.copied u hb]
      exact Text.takeBytes_slice h.start_boundary hi h.stop_boundary (by omega) (by omega)
    | replaced u named => simp [left, Body.left, hb] at ht
  · refine ⟨hi, h.stop_boundary, fun _ => hi', ?_⟩
    intro t ht
    cases hb : c.body with
    | copied u =>
      simp only [right, Body.right, hb, Body.copied.injEq] at ht
      rw [← ht, h.copied u hb]
      exact Text.dropBytes_slice h.start_boundary hi h.stop_boundary (by omega) (by omega)
    | replaced u named => simp [right, Body.right, hb] at ht

/-- A change of chunks that leaves them where they are and copies nothing anew. -/
structure Stays (f : Chunk → Chunk) : Prop where
  start : ∀ c, (f c).start = c.start
  stop : ∀ c, (f c).stop = c.stop
  copied : ∀ c t, (f c).body = .copied t → c.body = .copied t

theorem Stays.placed {f : Chunk → Chunk} (hf : Stays f) {base : Text} {c : Chunk}
    (h : c.Placed base) : (f c).Placed base where
  start_boundary := by rw [hf.start]; exact h.start_boundary
  stop_boundary := by rw [hf.stop]; exact h.stop_boundary
  forward := by rw [hf.start, hf.stop]; exact h.forward
  copied t ht := by rw [hf.start, hf.stop]; exact h.copied t (hf.copied c t ht)

end Chunk

/-- The chunks cover `base` from `lo` to `hi`, in order and without gaps. -/
def Tiles (base : Text) : Nat → List Chunk → Nat → Prop
  | lo, [], hi => lo = hi
  | lo, c :: cs, hi => c.start = lo ∧ c.Placed base ∧ Tiles base c.stop cs hi

namespace Tiles
variable {base : Text} {lo hi i : Nat} {cs : List Chunk}

theorem le (h : Tiles base lo cs hi) : lo ≤ hi := by
  induction cs generalizing lo with
  | nil => exact Nat.le_of_eq h
  | cons c cs ih =>
    obtain ⟨rfl, placed, rest⟩ := h
    exact Nat.le_trans placed.le (ih rest)

theorem placed (h : Tiles base lo cs hi) {c : Chunk} (hc : c ∈ cs) : c.Placed base := by
  induction cs generalizing lo with
  | nil => simp at hc
  | cons d cs ih =>
    obtain ⟨-, placed, rest⟩ := h
    rcases List.mem_cons.1 hc with rfl | hc
    · exact placed
    · exact ih rest hc

/-- Every chunk of a tiling lies between its ends. -/
theorem within (h : Tiles base lo cs hi) {c : Chunk} (hc : c ∈ cs) :
    lo ≤ c.start ∧ c.stop ≤ hi := by
  induction cs generalizing lo with
  | nil => simp at hc
  | cons d cs ih =>
    obtain ⟨rfl, placed, rest⟩ := h
    rcases List.mem_cons.1 hc with rfl | hc
    · exact ⟨Nat.le_refl _, rest.le⟩
    · have bounds := ih rest hc
      have := placed.le
      omega

/-- Each chunk ends before the later ones start. -/
theorem pairwise (h : Tiles base lo cs hi) : cs.Pairwise fun c d => c.stop ≤ d.start := by
  induction cs generalizing lo with
  | nil => exact List.Pairwise.nil
  | cons c cs ih =>
    obtain ⟨-, -, rest⟩ := h
    exact List.pairwise_cons.2 ⟨fun d hd => (rest.within hd).1, ih rest⟩

/-- Two chunks of a tiling are the same or lie apart. -/
theorem apart (h : Tiles base lo cs hi) {c d : Chunk} (hc : c ∈ cs) (hd : d ∈ cs) :
    c = d ∨ c.stop ≤ d.start ∨ d.stop ≤ c.start := by
  induction cs generalizing lo with
  | nil => simp at hc
  | cons e cs ih =>
    obtain ⟨-, -, rest⟩ := h
    rcases List.mem_cons.1 hc with rfl | hc'
    · rcases List.mem_cons.1 hd with rfl | hd'
      · exact .inl rfl
      · exact .inr (.inl (rest.within hd').1)
    · rcases List.mem_cons.1 hd with rfl | hd'
      · exact .inr (.inr (rest.within hc').1)
      · exact ih rest hc' hd'

/-- Every offset before the end lies in a chunk that starts at it or before. -/
theorem exists_from (h : Tiles base lo cs hi) (hlo : lo ≤ i) (hhi : i < hi) :
    ∃ c ∈ cs, c.start ≤ i ∧ i < c.stop := by
  induction cs generalizing lo with
  | nil => simp only [Tiles] at h; omega
  | cons c cs ih =>
    obtain ⟨rfl, -, rest⟩ := h
    by_cases hi' : i < c.stop
    · exact ⟨c, List.mem_cons_self, hlo, hi'⟩
    · obtain ⟨d, hd, b⟩ := ih rest (by omega)
      exact ⟨d, List.mem_cons_of_mem _ hd, b⟩

/-- Every offset behind the start lies in a chunk that stops at it or behind. -/
theorem exists_upto (h : Tiles base lo cs hi) (hlo : lo < i) (hhi : i ≤ hi) :
    ∃ c ∈ cs, c.start < i ∧ i ≤ c.stop := by
  induction cs generalizing lo with
  | nil => simp only [Tiles] at h; omega
  | cons c cs ih =>
    obtain ⟨rfl, -, rest⟩ := h
    by_cases hi' : i ≤ c.stop
    · exact ⟨c, List.mem_cons_self, hlo, hi'⟩
    · obtain ⟨d, hd, b⟩ := ih rest (by omega)
      exact ⟨d, List.mem_cons_of_mem _ hd, b⟩

theorem append_iff {ds : List Chunk} :
    Tiles base lo (cs ++ ds) hi ↔ ∃ mid, Tiles base lo cs mid ∧ Tiles base mid ds hi := by
  induction cs generalizing lo with
  | nil => simp [Tiles]
  | cons c cs ih => simp [Tiles, ih, and_assoc]

/-- A tiling around one of its chunks. -/
theorem around {pre post : List Chunk} {c : Chunk} (h : Tiles base lo (pre ++ c :: post) hi) :
    Tiles base lo pre c.start ∧ c.Placed base ∧ Tiles base c.stop post hi := by
  obtain ⟨mid, hpre, rfl, placed, hpost⟩ := append_iff.1 h
  exact ⟨hpre, placed, hpost⟩

section Around
variable {pre post : List Chunk} {c : Chunk}

/-- The chunks in front of one start before it. -/
theorem start_lt_of_front (ne : base ≠ []) (h : Tiles base lo (pre ++ c :: post) hi) :
    ∀ d ∈ pre, d.start < c.start := by
  intro d hd
  have := (h.around.1.within hd).2
  have := (h.around.1.placed hd).forward ne
  omega

/-- The chunks behind one start where it stops, or later. -/
theorem stop_le_of_behind (h : Tiles base lo (pre ++ c :: post) hi) :
    ∀ d ∈ post, c.stop ≤ d.start := fun _ hd => (h.around.2.2.within hd).1

end Around

theorem map (h : Tiles base lo cs hi) {f : Chunk → Chunk} (hf : Chunk.Stays f) :
    Tiles base lo (cs.map f) hi := by
  induction cs generalizing lo with
  | nil => exact h
  | cons c cs ih =>
    obtain ⟨start, placed, rest⟩ := h
    exact ⟨(hf.start c).trans start, hf.placed placed, by rw [hf.stop]; exact ih rest⟩

theorem divide (h : Tiles base lo cs hi) (hi' : Text.isBoundary base i = true) :
    Tiles base lo (cs.flatMap (·.divide i)) hi := by
  induction cs generalizing lo with
  | nil => exact h
  | cons c cs ih =>
    obtain ⟨start, placed, rest⟩ := h
    rw [List.flatMap_cons]
    by_cases hc : c.crosses i = true
    · have parts := placed.parts hi' hc
      simp only [Chunk.divide, hc, if_true]
      exact ⟨start, parts.1, rfl, parts.2, ih rest⟩
    · simp only [Chunk.divide, hc]
      exact ⟨start, placed, ih rest⟩

end Tiles

namespace Buffer

/-- The invariant of buffers: the chunks tile the base, and an empty base has one chunk. -/
structure Tiled (b : Buffer) : Prop where
  tiles : Tiles b.base 0 b.chunks (Text.byteSize b.base)
  single : b.base = [] → ∃ c, b.chunks = [c]

/-- The buffer with the chunk across `i` in two parts. -/
def divide (b : Buffer) (i : Nat) : Buffer := { b with chunks := b.chunks.flatMap (·.divide i) }

/-- No chunk lies across `i`. -/
def Parted (b : Buffer) (i : Nat) : Prop := ∀ c ∈ b.chunks, c.crosses i = false

variable {b b' : Buffer} {i : Nat}

theorem tiled_ofText (t : Text) : (ofText t).Tiled := by
  refine ⟨⟨rfl, ⟨Text.isBoundary_zero t, Text.isBoundary_byteSize t, Text.byteSize_pos, ?_⟩, rfl⟩,
    fun _ => ⟨_, rfl⟩⟩
  intro u hu
  simp only [Chunk.ofText, Body.copied.injEq] at hu
  simp [ofText, Chunk.ofText, ← hu]

/-- Nothing lies across an offset in an empty base. -/
theorem Tiled.base_ne_nil_of_crosses (h : b.Tiled) {c : Chunk} (hc : c ∈ b.chunks)
    (cross : c.crosses i = true) : b.base ≠ [] := by
  intro e
  have lt := Chunk.crosses_iff.1 cross
  have stop := (h.tiles.within hc).2
  rw [e, Text.byteSize_nil] at stop
  omega

/-- Only one chunk lies across an offset. -/
theorem Tiled.eq_of_crosses (h : b.Tiled) {c d : Chunk} (hc : c ∈ b.chunks) (hd : d ∈ b.chunks)
    (cross : c.crosses i = true) (cross' : d.crosses i = true) : c = d := by
  have lt := Chunk.crosses_iff.1 cross
  have lt' := Chunk.crosses_iff.1 cross'
  rcases h.tiles.apart hc hd with e | e | e
  · exact e
  · omega
  · omega

/-- The check of an offset passes at the boundaries of the base. -/
theorem checkIndex_eq_ok : b.checkIndex i = .ok () ↔ Text.isBoundary b.base i = true := by
  unfold checkIndex
  split
  · rename_i h
    have : Text.isBoundary b.base i ≠ true := fun hb =>
      absurd (Text.le_byteSize_of_isBoundary hb) (by omega)
    simp [this]
  · split <;> simp_all

theorem checkRange_eq_ok {start stop : Nat} : b.checkRange start stop = .ok () ↔
    start ≤ stop ∧ Text.isBoundary b.base start = true ∧ Text.isBoundary b.base stop = true := by
  unfold checkRange
  split
  · rename_i h
    simp only [reduceCtorEq, false_iff, not_and]
    omega
  · rename_i h
    rw [← checkIndex_eq_ok, ← checkIndex_eq_ok]
    cases hs : b.checkIndex start with
    | error e => simp [bind, Except.bind]
    | ok u => simp [bind, Except.bind, Nat.le_of_not_lt h]

theorem divide_eq_self (h : b.Parted i) : b.divide i = b := by
  rw [divide, Chunk.flatMap_divide h]

theorem parted_divide (b : Buffer) (i : Nat) : (b.divide i).Parted i := by
  intro d hd
  obtain ⟨c, -, hd⟩ := List.mem_flatMap.1 hd
  exact Chunk.not_crosses_of_mem_divide hd

theorem Parted.divide (h : b.Parted i) (j : Nat) : (b.divide j).Parted i := by
  intro d hd
  obtain ⟨c, hc, hd⟩ := List.mem_flatMap.1 hd
  cases cross : d.crosses i with
  | false => rfl
  | true =>
    have whole := Chunk.crosses_of_mem_divide hd cross
    rw [h c hc] at whole
    exact whole.symm

/-- Where no chunk lies across an offset before the end, one starts. -/
theorem Tiled.exists_start (h : b.Tiled) (hp : b.Parted i) (lt : i < Text.byteSize b.base) :
    ∃ c ∈ b.chunks, c.start = i := by
  obtain ⟨c, hc, le, lt'⟩ := h.tiles.exists_from (Nat.zero_le i) lt
  have apart := hp c hc
  simp only [Chunk.crosses, Bool.and_eq_false_iff, decide_eq_false_iff_not] at apart
  exact ⟨c, hc, by omega⟩

/-- Where no chunk lies across an offset behind the start, one stops. -/
theorem Tiled.exists_stop (h : b.Tiled) (hp : b.Parted i) (pos : 0 < i)
    (le : i ≤ Text.byteSize b.base) : ∃ c ∈ b.chunks, c.stop = i := by
  obtain ⟨c, hc, lt, le'⟩ := h.tiles.exists_upto pos le
  have apart := hp c hc
  simp only [Chunk.crosses, Bool.and_eq_false_iff, decide_eq_false_iff_not] at apart
  exact ⟨c, hc, by omega⟩

theorem Tiled.eq_of_start_eq (h : b.Tiled) {c d : Chunk} (hc : c ∈ b.chunks) (hd : d ∈ b.chunks)
    (e : c.start = d.start) : c = d := by
  by_cases ne : b.base = []
  · obtain ⟨x, hx⟩ := h.single ne
    rw [hx, List.mem_singleton] at hc hd
    rw [hc, hd]
  · have hc' := (h.tiles.placed hc).forward ne
    have hd' := (h.tiles.placed hd).forward ne
    rcases h.tiles.apart hc hd with eq | before | after
    · exact eq
    · omega
    · omega

theorem Tiled.eq_of_stop_eq (h : b.Tiled) {c d : Chunk} (hc : c ∈ b.chunks) (hd : d ∈ b.chunks)
    (e : c.stop = d.stop) : c = d := by
  by_cases ne : b.base = []
  · obtain ⟨x, hx⟩ := h.single ne
    rw [hx, List.mem_singleton] at hc hd
    rw [hc, hd]
  · have hc' := (h.tiles.placed hc).forward ne
    have hd' := (h.tiles.placed hd).forward ne
    rcases h.tiles.apart hc hd with eq | before | after
    · exact eq
    · omega
    · omega

/-- A cut goes through when every chunk it would divide can be divided. -/
theorem cut_of_divisible (hi : Text.isBoundary b.base i = true)
    (hd : ∀ c ∈ b.chunks, c.crosses i = true → c.body.isDivisible = true) :
    b.cut i = .ok (b.divide i) := by
  have ok := checkIndex_eq_ok.2 hi
  unfold cut
  simp only [ok, bind, Except.bind]
  cases hf : b.chunks.find? (·.crosses i) with
  | none =>
    have none := List.find?_eq_none.1 hf
    simp [divide_eq_self (fun c hc => by simpa using none c hc)]
  | some c =>
    have := hd c (List.mem_of_find?_eq_some hf) (by simpa using List.find?_some hf)
    simp [this, divide]

/-- A cut is refused inside a replacement, with that chunk in the error. -/
theorem Tiled.cut_of_not_divisible (h : b.Tiled) (hi : Text.isBoundary b.base i = true) {c : Chunk}
    (hc : c ∈ b.chunks) (cross : c.crosses i = true) (hd : c.body.isDivisible = false) :
    b.cut i = .error (b.splitError c i) := by
  have ok := checkIndex_eq_ok.2 hi
  unfold cut
  simp only [ok, bind, Except.bind]
  cases hf : b.chunks.find? (·.crosses i) with
  | none => simp [List.find?_eq_none.1 hf c hc] at cross
  | some d =>
    have hd' := List.mem_of_find?_eq_some hf
    have cross' : d.crosses i = true := by simpa using List.find?_some hf
    obtain rfl := h.eq_of_crosses hc hd' cross cross'
    simp [hd]

theorem cut_of_not_boundary (hi : Text.isBoundary b.base i = false) : ∃ e, b.cut i = .error e := by
  cases hc : b.checkIndex i with
  | error e => exact ⟨e, by simp [cut, hc, bind, Except.bind]⟩
  | ok u => simp [checkIndex_eq_ok.1 hc] at hi

/-- What a cut that goes through has checked and done. -/
theorem Tiled.cut_eq_ok (h : b.Tiled) : b.cut i = .ok b' ↔ Text.isBoundary b.base i = true ∧
    (∀ c ∈ b.chunks, c.crosses i = true → c.body.isDivisible = true) ∧ b' = b.divide i := by
  constructor
  · intro hcut
    have hi : Text.isBoundary b.base i = true := by
      cases hb : Text.isBoundary b.base i with
      | true => rfl
      | false =>
        obtain ⟨e, he⟩ := cut_of_not_boundary hb
        rw [he] at hcut
        cases hcut
    have hd : ∀ c ∈ b.chunks, c.crosses i = true → c.body.isDivisible = true := by
      intro c hc cross
      cases hd : c.body.isDivisible with
      | true => rfl
      | false =>
        rw [h.cut_of_not_divisible hi hc cross hd] at hcut
        cases hcut
    rw [cut_of_divisible hi hd] at hcut
    cases hcut
    exact ⟨hi, hd, rfl⟩
  · rintro ⟨hi, hd, rfl⟩
    exact cut_of_divisible hi hd

end Buffer

/-- What the elementary changes of a buffer keep, every edit keeps. -/
theorem Edit.apply_keeps {P : Buffer → Prop}
    (cut : ∀ b b' i, P b → b.cut i = .ok b' → P b')
    (left : ∀ b i f, P b → P (b.attachLeft i f))
    (right : ∀ b i f, P b → P (b.attachRight i f))
    (front : ∀ b content, P b → P (b.prepend content))
    (back : ∀ b content, P b → P (b.append content))
    (replace : ∀ b start stop content options, P b → P (b.replaceChunks start stop content options))
    (e : Edit) {b : Buffer} (h : P b) : P (e.apply b).left := by
  have atCut : ∀ (b : Buffer) (i : Nat) (next : Buffer → Attempt Buffer), P b →
      (∀ b', P b' → P (next b').left) → P (b.atCut i next).left := by
    intro b i next hb hn
    unfold Buffer.atCut
    cases hc : b.cut i with
    | ok b' => exact hn b' (cut b b' i hb hc)
    | error e => exact hb
  cases e with
  | append content => exact back _ _ h
  | prepend content => exact front _ _ h
  | appendLeft i content => exact atCut _ _ _ h fun b' hb => left b' i (· ++ content) hb
  | appendRight i content => exact atCut _ _ _ h fun b' hb => right b' i (· ++ content) hb
  | prependLeft i content => exact atCut _ _ _ h fun b' hb => left b' i (content ++ ·) hb
  | prependRight i content => exact atCut _ _ _ h fun b' hb => right b' i (content ++ ·) hb
  | overwrite start stop content options =>
    simp only [Edit.apply, Buffer.overwrite]
    split
    · exact h
    · split
      · exact h
      · exact atCut _ _ _ h fun b' hb => atCut _ _ _ hb fun b'' hb' => replace _ _ _ _ _ hb'
  | remove start stop =>
    simp only [Edit.apply, Buffer.remove]
    split
    · exact h
    · split
      · exact h
      · exact atCut _ _ _ h fun b' hb => atCut _ _ _ hb fun b'' hb' => replace _ _ _ _ _ hb'

namespace Buffer
variable {b b' : Buffer} {i : Nat}

theorem stays_attach (p : Chunk → Bool) (f : Chunk → Chunk) (hf : Chunk.Stays f) :
    Chunk.Stays fun c => if p c then f c else c where
  start c := by split <;> simp [hf.start]
  stop c := by split <;> simp [hf.stop]
  copied c t := by
    split
    · exact hf.copied c t
    · exact id

/-- A change of the chunks that leaves them where they are keeps the invariant. -/
theorem Tiled.map (h : b.Tiled) {f : Chunk → Chunk} (hf : Chunk.Stays f) :
    { b with chunks := b.chunks.map f }.Tiled := by
  refine ⟨h.tiles.map hf, fun e => ?_⟩
  obtain ⟨c, hc⟩ := h.single e
  exact ⟨f c, by simp [hc]⟩

theorem Tiled.divide (h : b.Tiled) (hi : Text.isBoundary b.base i = true) : (b.divide i).Tiled := by
  refine ⟨h.tiles.divide hi, fun e => ?_⟩
  obtain ⟨c, hc⟩ := h.single e
  rw [divide_eq_self]
  · exact ⟨c, hc⟩
  · intro d hd
    cases cross : d.crosses i with
    | false => rfl
    | true => exact absurd e (h.base_ne_nil_of_crosses hd cross)

theorem Tiled.attachLeft (h : b.Tiled) (i : Nat) (f : Text → Text) : (b.attachLeft i f).Tiled := by
  unfold Buffer.attachLeft
  split
  · exact h.map (stays_attach _ (fun c => { c with after := f c.after })
      ⟨fun _ => rfl, fun _ => rfl, fun _ _ => id⟩)
  · exact ⟨h.tiles, h.single⟩

theorem Tiled.attachRight (h : b.Tiled) (i : Nat) (f : Text → Text) :
    (b.attachRight i f).Tiled := by
  unfold Buffer.attachRight
  split
  · exact h.map (stays_attach _ (fun c => { c with before := f c.before })
      ⟨fun _ => rfl, fun _ => rfl, fun _ _ => id⟩)
  · exact ⟨h.tiles, h.single⟩

theorem Tiled.replaceChunks (h : b.Tiled) (start stop : Nat) (content : Text)
    (options : OverwriteMode) : (b.replaceChunks start stop content options).Tiled := by
  refine h.map ⟨fun c => ?_, fun c => ?_, fun c t => ?_⟩
  · split
    · rfl
    · split <;> rfl
  · split
    · rfl
    · split <;> rfl
  · split
    · simp [Chunk.replace]
    · split
      · simp [Chunk.blank, Chunk.replace]
      · exact id

/-- A cut that goes through leaves a buffer that is parted there and wherever it was. -/
theorem Tiled.cut (h : b.Tiled) (hc : b.cut i = .ok b') :
    b'.Tiled ∧ b'.base = b.base ∧ b'.Parted i ∧ ∀ j, b.Parted j → b'.Parted j := by
  obtain ⟨hi, -, rfl⟩ := h.cut_eq_ok.1 hc
  exact ⟨h.divide hi, rfl, parted_divide b i, fun j hj => hj.divide i⟩

/-- Every edit keeps the invariant, accepted or refused. -/
theorem Tiled.apply (h : b.Tiled) (e : Edit) : (e.apply b).left.Tiled := by
  refine Edit.apply_keeps (P := Tiled) ?_ (fun _ i f h => h.attachLeft i f)
    (fun _ i f h => h.attachRight i f) (fun _ _ h => ⟨h.tiles, h.single⟩)
    (fun _ _ h => ⟨h.tiles, h.single⟩)
    (fun _ start stop content options h => h.replaceChunks start stop content options) e h
  exact fun b b' i h hc => (h.cut hc).1

theorem Tiled.run (h : b.Tiled) (edits : List Edit) : (b.run edits).Tiled := by
  induction edits generalizing b with
  | nil => exact h
  | cons e edits ih => exact ih (h.apply e)

/-- Edits of a text tile it with chunks, whatever the buffer is named. -/
theorem tiled_reached (t : Text) (filename : Option String) (edits : List Edit) :
    Tiled { (ofText t).run edits with filename } :=
  have run := (tiled_ofText t).run edits
  ⟨run.tiles, run.single⟩

theorem cut_base (h : b.cut i = .ok b') : b'.base = b.base := by
  unfold cut at h
  cases hc : b.checkIndex i with
  | error e => simp [hc, bind, Except.bind] at h
  | ok u =>
    simp only [hc, bind, Except.bind] at h
    split at h
    · cases h; rfl
    · split at h <;> cases h; rfl

/-- No edit changes the base. -/
theorem apply_base (b : Buffer) (e : Edit) : (e.apply b).left.base = b.base := by
  refine Edit.apply_keeps (P := fun b' => b'.base = b.base) ?_ ?_ ?_ ?_ ?_ ?_ e rfl
  · exact fun b₁ b₂ i h hc => (cut_base hc).trans h
  · intro b₁ i f h
    unfold attachLeft
    split <;> exact h
  · intro b₁ i f h
    unfold attachRight
    split <;> exact h
  · exact fun _ _ h => h
  · exact fun _ _ h => h
  · exact fun _ _ _ _ _ h => h

theorem run_base (b : Buffer) (edits : List Edit) : (b.run edits).base = b.base := by
  induction edits generalizing b with
  | nil => rfl
  | cons e edits ih => exact (ih _).trans (apply_base b e)

end Buffer

end ComponentEdit
