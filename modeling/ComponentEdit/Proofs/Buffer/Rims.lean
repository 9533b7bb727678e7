import ComponentEdit.Proofs.Buffer.Provenance
import ComponentEdit.Proofs.Buffer.Splice

/-!
# The rim of an offset in the rendered text

What is attached at an offset of the base is its rim. A place of the rendered text where a
copied body shows the offset stands in front of the rim if the body ends there, and behind it
otherwise (`Buffer.rimAt`). The rendered text up to the place then is what is shown up to
the offset with the front part of the rim, and from the place on it is the back part with
what is shown from the offset on (`Buffer.LaidOut.render_at`).
-/

namespace ComponentEdit
set_option autoImplicit false

namespace Buffer

/-- The text attached to the left of an offset. -/
def leftOf (b : Buffer) (i : Nat) : Text :=
  match b.chunks.find? (·.stop == i) with
  | some c => c.after
  | none => if i = 0 then b.front else []

/-- The text attached to the right of an offset. -/
def rightOf (b : Buffer) (i : Nat) : Text :=
  match b.chunks.find? (·.start == i) with
  | some c => c.before
  | none => if i = Text.byteSize b.base then b.back else []

/-- Whether no chunk starts inside a range. -/
def isWhole (b : Buffer) (start stop : Nat) : Bool :=
  b.chunks.all fun c => !(decide (start < c.start) && decide (c.start < stop))

/-- Whether a copied body that ends at the offset `i` of the base ends at `place`. -/
def endsAt (b : Buffer) (i place : Nat) : Bool :=
  b.copies.any fun c => c.origin + c.size == i && c.place + c.size == place

/-- What is attached at the offset `i`, in front of `place` and behind it. A base without
characters has all of it around its only offset, the right one first. -/
def rimAt (b : Buffer) (i place : Nat) : Rim :=
  if b.base.isEmpty then ⟨b.rightOf i, b.leftOf i⟩
  else if b.endsAt i place then ⟨[], b.leftOf i ++ b.rightOf i⟩
  else ⟨b.leftOf i ++ b.rightOf i, []⟩

/-- A copied body shows the offset `i` of the base at `place`. -/
def Shows (b : Buffer) (i place : Nat) : Prop :=
  ∃ pre c post s r, b.chunks = pre ++ c :: post ∧ c.body = .copied (s ++ r) ∧
    i = c.start + Text.byteSize s ∧
    place = Text.byteSize (b.front ++ pre.flatMap Chunk.render ++ c.before ++ s)

variable {b : Buffer} {m : Layout} {i place : Nat}

theorem mem_copiesFrom {cs : List Chunk} {copy : Copy} : copy ∈ copiesFrom place cs ↔
    ∃ pre c post t, cs = pre ++ c :: post ∧ c.body = .copied t ∧
      copy = ⟨place + Text.byteSize (pre.flatMap Chunk.render ++ c.before), c.start,
        Text.byteSize t⟩ := by
  induction cs generalizing place with
  | nil => simp [copiesFrom]
  | cons c cs ih =>
    have head : copy ∈ copiesFrom place (c :: cs) ↔
        (∃ t, c.body = .copied t ∧
          copy = ⟨place + Text.byteSize c.before, c.start, Text.byteSize t⟩) ∨
          copy ∈ copiesFrom (place + Text.byteSize c.render) cs := by
      cases hb : c.body <;> simp [copiesFrom, hb]
    rw [head, ih]
    constructor
    · rintro (⟨t, body, rfl⟩ | ⟨pre, d, post, t, rfl, body, rfl⟩)
      · exact ⟨[], c, cs, t, rfl, body, by simp⟩
      · exact ⟨c :: pre, d, post, t, rfl, body, by simp [Nat.add_assoc]⟩
    · rintro ⟨pre, d, post, t, split, body, rfl⟩
      cases pre with
      | nil =>
        obtain ⟨rfl, rfl⟩ := List.cons.inj split
        exact .inl ⟨t, body, by simp⟩
      | cons e pre =>
        obtain ⟨rfl, rfl⟩ := List.cons.inj split
        exact .inr ⟨pre, d, post, t, rfl, body, by simp [Nat.add_assoc]⟩

/-- The rendered text up to a place in a copied body. -/
theorem takeBytes_render {pre post : List Chunk} {c : Chunk} {s r : Text}
    (chunks : b.chunks = pre ++ c :: post) (body : c.body = .copied (s ++ r)) :
    b.render.takeBytes (Text.byteSize (b.front ++ pre.flatMap Chunk.render ++ c.before ++ s)) =
      b.front ++ pre.flatMap Chunk.render ++ c.before ++ s := by
  have split : b.render = (b.front ++ pre.flatMap Chunk.render ++ c.before ++ s) ++
      (r ++ c.after ++ post.flatMap Chunk.render ++ b.back) := by
    simp [render, chunks, Chunk.render, body, Body.text]
  rw [split, Text.takeBytes_byteSize_append]

namespace LaidOut

theorem left_eq (h : b.LaidOut m) (le : i ≤ Text.byteSize b.base) : m.left i = b.leftOf i := by
  unfold leftOf
  cases found : b.chunks.find? (·.stop == i) with
  | some c =>
    have stop : c.stop = i := by simpa using List.find?_some found
    rw [← stop, (h.chunks c (List.mem_of_find?_eq_some found)).after]
  | none =>
    have none : ∀ c ∈ b.chunks, c.stop ≠ i := by simpa using found
    by_cases first : i = 0
    · simp [first, h.front]
    · obtain ⟨c, hc, lo, hi⟩ := h.tiled.tiles.exists_upto (i := i) (by omega) le
      have apart := none c hc
      simp [first, ((h.chunks c hc).quiet i lo (by omega)).1]

theorem right_eq (h : b.LaidOut m) (le : i ≤ Text.byteSize b.base) : m.right i = b.rightOf i := by
  unfold rightOf
  cases found : b.chunks.find? (·.start == i) with
  | some c =>
    have start : c.start = i := by simpa using List.find?_some found
    rw [← start, (h.chunks c (List.mem_of_find?_eq_some found)).before]
  | none =>
    have none : ∀ c ∈ b.chunks, c.start ≠ i := by simpa using found
    by_cases last : i = Text.byteSize b.base
    · simp [last, h.back]
    · obtain ⟨c, hc, lo, hi⟩ := h.tiled.tiles.exists_from (i := i) (Nat.zero_le _) (by omega)
      have apart := none c hc
      simp [last, ((h.chunks c hc).quiet i (by omega) hi).2]

theorem uncut_eq (h : b.LaidOut m) {start stop : Nat} (le : stop ≤ Text.byteSize b.base) :
    m.uncut start stop = b.isWhole start stop := by
  rw [Bool.eq_iff_iff, Layout.uncut_iff]
  simp only [isWhole, List.all_eq_true, Bool.not_eq_true', Bool.and_eq_false_iff,
    decide_eq_false_iff_not]
  constructor
  · intro none c hc
    by_cases behind : start < c.start ∧ c.start < stop
    · have cut := none c.start behind.1 behind.2
      rw [(h.chunks c hc).cut_start.1] at cut
      cases cut
    · omega
  · intro none k lo hi
    obtain ⟨c, hc, from', upto⟩ := h.tiled.tiles.exists_from (i := k) (Nat.zero_le _) (by omega)
    have apart := none c hc
    exact ((h.chunks c hc).whole k (by omega) upto).1

/-- In front of the body of a chunk the rendered text is what is shown up to its start, with
what is attached there. -/
theorem upTo_chunk (h : b.LaidOut m) {pre post : List Chunk} {c : Chunk}
    (chunks : b.chunks = pre ++ c :: post) :
    b.front ++ pre.flatMap Chunk.render ++ c.before =
      m.upTo 0 (b.base.takeBytes c.start) ++ (m.left c.start ++ m.right c.start) := by
  have tiles := h.tiled.tiles
  rw [chunks] at tiles
  obtain ⟨front, placed, -⟩ := tiles.around
  have agrees := h.chunks c (by simp [chunks])
  have shown := render_tiles h.base_ne front (fun d hd => h.chunks d (by simp [chunks, hd]))
    placed.start_boundary
  have size : Text.byteSize (b.base.takeBytes c.start) = c.start := by
    simpa [Text.isBoundary] using placed.start_boundary
  have stretch := m.left_stretch 0 (b.base.takeBytes c.start)
  rw [h.front, size, Nat.zero_add] at stretch
  rw [shown, Text.slice_zero, stretch, agrees.before, List.append_assoc]

/-- A part of the body of a copied chunk, up to an offset `i` in it or at its end. -/
theorem upTo_body (h : b.LaidOut m) {pre post : List Chunk} {c : Chunk} {s r : Text}
    (chunks : b.chunks = pre ++ c :: post) (body : c.body = .copied (s ++ r)) (ne : s ≠ []) :
    b.front ++ pre.flatMap Chunk.render ++ c.before ++ s =
      m.upTo 0 (b.base.takeBytes (c.start + Text.byteSize s)) := by
  have hc : c ∈ b.chunks := by simp [chunks]
  have placed := h.tiled.tiles.placed hc
  have agrees := h.chunks c hc
  obtain ⟨p, q, base, lo, hi⟩ := placed.exists_around body
  have upto := placed.boundary_of_copied body
  have part : Text.slice b.base c.start (c.start + Text.byteSize s) = s := by
    rw [base, lo, List.append_assoc s r q, Text.slice_parts]
  have within : c.start + Text.byteSize s ≤ c.stop := by
    rw [lo, hi, Text.byteSize_append]
    omega
  have copied := Slots.upTo_copied (m := m.toSlots) placed.start_boundary upto
    (Nat.lt_add_of_pos_right (Text.byteSize_pos ne))
    (fun k lo hi => agrees.quiet k lo (by omega))
    fun k lo hi => by rw [agrees.body k lo (by omega), Chunk.bodyAt, body]
  have front : b.base.takeBytes (c.start + Text.byteSize s) = b.base.takeBytes c.start ++ s := by
    rw [base, lo, Text.takeBytes_append_add, List.append_assoc s r q,
      Text.takeBytes_byteSize_append, Text.takeBytes_byteSize_append]
  have size : Text.byteSize (b.base.takeBytes c.start) = c.start := by
    simpa [Text.isBoundary] using placed.start_boundary
  rw [part] at copied
  rw [h.upTo_chunk chunks, front, Slots.upTo_append, size, Nat.zero_add, copied]
  simp

/-- Where a copied body that goes on shows an offset, what is attached there is in front. -/
theorem upTo_open (h : b.LaidOut m) {pre post : List Chunk} {c : Chunk} {s r : Text}
    (chunks : b.chunks = pre ++ c :: post) (body : c.body = .copied (s ++ r)) (ne : r ≠ []) :
    b.front ++ pre.flatMap Chunk.render ++ c.before ++ s =
      m.upTo 0 (b.base.takeBytes (c.start + Text.byteSize s)) ++
        (m.left (c.start + Text.byteSize s) ++ m.right (c.start + Text.byteSize s)) := by
  by_cases first : s = []
  · subst first
    simpa using h.upTo_chunk chunks
  · have hc : c ∈ b.chunks := by simp [chunks]
    have placed := h.tiled.tiles.placed hc
    have size := Text.add_byteSize_slice placed.start_boundary placed.stop_boundary placed.le
    rw [← placed.copied _ body, Text.byteSize_append] at size
    have quiet := (h.chunks c hc).quiet (c.start + Text.byteSize s)
      (Nat.lt_add_of_pos_right (Text.byteSize_pos first)) (by have := Text.byteSize_pos ne; omega)
    rw [h.upTo_body chunks body first, quiet.1, quiet.2]
    simp

/-- Up to a place where a copied body ends. -/
theorem takeBytes_of_endsAt (h : b.LaidOut m) (ends : b.endsAt i place = true) :
    b.render.takeBytes place = m.upTo 0 (b.base.takeBytes i) := by
  obtain ⟨copy, mem, here⟩ := List.any_eq_true.1 ends
  obtain ⟨pre, c, post, t, chunks, body, rfl⟩ := mem_copiesFrom.1 mem
  simp only [Bool.and_eq_true, beq_iff_eq] at here
  obtain ⟨rfl, rfl⟩ := here
  have placed := h.tiled.tiles.placed (c := c) (by simp [chunks])
  have ne : t ≠ [] := by
    rw [placed.copied t body]
    exact Text.slice_ne_nil placed.start_boundary placed.stop_boundary (placed.forward h.base_ne)
  have whole : c.body = .copied (t ++ []) := by rw [body, List.append_nil]
  rw [← h.upTo_body chunks whole ne, ← takeBytes_render chunks whole]
  simp [Nat.add_assoc]

/-- Up to a place where a copied body shows an offset and none ends. -/
theorem takeBytes_of_not_endsAt (h : b.LaidOut m) (shows : b.Shows i place)
    (open' : b.endsAt i place = false) :
    b.render.takeBytes place = m.upTo 0 (b.base.takeBytes i) ++ (m.left i ++ m.right i) := by
  obtain ⟨pre, c, post, s, r, chunks, body, rfl, rfl⟩ := shows
  have ne : r ≠ [] := by
    rintro rfl
    rw [List.append_nil] at body
    have copied : _ ∈ b.copies := mem_copiesFrom.2 ⟨pre, c, post, s, chunks, body, rfl⟩
    refine absurd (List.any_eq_true.2 ⟨_, copied, ?_⟩) (ne_true_of_eq_false open')
    simp [Nat.add_assoc]
  rw [takeBytes_render chunks body, h.upTo_open chunks body ne]

/-- The rendered text around a place where a copied body shows an offset. -/
theorem render_at (h : b.LaidOut m) (shows : b.Shows i place) :
    Text.isBoundary b.base i = true ∧
      b.render.takeBytes place = m.upTo 0 (b.base.takeBytes i) ++ (b.rimAt i place).front ∧
      b.render.dropBytes place = (b.rimAt i place).back ++ m.after i (b.base.dropBytes i) := by
  have boundary : Text.isBoundary b.base i = true := by
    obtain ⟨pre, c, post, s, r, chunks, body, rfl, -⟩ := shows
    exact (h.tiled.tiles.placed (c := c) (by simp [chunks])).boundary_of_copied body
  have le := Text.le_byteSize_of_isBoundary boundary
  have filled : b.base.isEmpty = false := List.isEmpty_eq_false_iff.2 h.base_ne
  have front : b.render.takeBytes place =
      m.upTo 0 (b.base.takeBytes i) ++ (b.rimAt i place).front := by
    cases ends : b.endsAt i place with
    | true => simp [h.takeBytes_of_endsAt ends, rimAt, filled, ends]
    | false =>
      rw [h.takeBytes_of_not_endsAt shows ends, h.left_eq le, h.right_eq le]
      simp [rimAt, filled, ends]
  have rim : (b.rimAt i place).front ++ (b.rimAt i place).back = m.left i ++ m.right i := by
    rw [h.left_eq le, h.right_eq le]
    cases ends : b.endsAt i place <;> simp [rimAt, filled, ends]
  have size : Text.byteSize (b.base.takeBytes i) = i := by simpa [Text.isBoundary] using boundary
  -- what is behind the place is what is left of the whole text
  have split := m.render_split (b.base.takeBytes i) (b.base.dropBytes i)
  rw [Text.takeBytes_append_dropBytes, size, ← h.render_eq, ← rim,
    ← Text.takeBytes_append_dropBytes b.render place, front] at split
  exact ⟨boundary, front, by simpa [List.append_assoc] using split⟩

end LaidOut

section Run
variable {x y : Trace} {t u v : Text} {ch : Char}

/-- A character of a copied run is shown in the body of a copied chunk. -/
theorem exists_chunk_of_run (run : b.trace = x ++ (Trace.copied i (u ++ ch :: v) ++ y)) :
    ∃ pre c post s r, b.chunks = pre ++ c :: post ∧ c.body = .copied (s ++ ch :: r) ∧
      i + Text.byteSize u = c.start + Text.byteSize s ∧
      x.text ++ u = b.front ++ pre.flatMap Chunk.render ++ c.before ++ s := by
  have split : b.trace = (x ++ Trace.copied i u) ++ (ch, .copied (i + Text.byteSize u)) ::
      (Trace.copied (i + Text.byteSize u + ch.utf8Size) v ++ y) := by
    simp [run, Trace.copied_append, Trace.copied]
  simpa using exists_chunk_of_trace_eq split

/-- A copied run shows the offsets between its characters and at its ends. -/
theorem shows_of_run (run : b.trace = x ++ (Trace.copied i (u ++ v) ++ y)) (ne : u ++ v ≠ []) :
    b.Shows (i + Text.byteSize u) (Text.byteSize x.text + Text.byteSize u) := by
  cases v with
  | cons ch v =>
    obtain ⟨pre, c, post, s, r, chunks, body, offset, text⟩ := exists_chunk_of_run run
    exact ⟨pre, c, post, s, ch :: r, chunks, body, offset, by rw [← text, Text.byteSize_append]⟩
  | nil =>
    rw [List.append_nil] at run ne
    obtain ⟨w, last, rfl⟩ : ∃ w last, u = w ++ [last] :=
      ⟨_, _, (List.dropLast_concat_getLast ne).symm⟩
    obtain ⟨pre, c, post, s, r, chunks, body, offset, text⟩ := exists_chunk_of_run run
    refine ⟨pre, c, post, s ++ [last], r, chunks, by simp [body], ?_, ?_⟩
    · rw [Text.byteSize_append, Text.byteSize_append]
      omega
    · rw [← List.append_assoc _ s, ← text]
      simp

/-- Nothing is attached between the characters of a copied run. -/
theorem LaidOut.quiet_between (h : b.LaidOut m)
    (run : b.trace = x ++ (Trace.copied i (u ++ ch :: v) ++ y)) (ne : u ≠ []) :
    m.left (i + Text.byteSize u) = [] ∧ m.right (i + Text.byteSize u) = [] := by
  obtain ⟨w, last, rfl⟩ : ∃ w last, u = w ++ [last] :=
    ⟨_, _, (List.dropLast_concat_getLast ne).symm⟩
  obtain ⟨pre, c, post, s, r, chunks, body, offset, text⟩ := exists_chunk_of_run run
  have run' := run
  rw [List.append_assoc, List.singleton_append] at run'
  obtain ⟨pre', d, post', s', r', chunks', body', offset', text'⟩ := exists_chunk_of_run run'
  have ends : d.start + Text.byteSize (s' ++ [last]) = i + Text.byteSize (w ++ [last]) := by
    rw [Text.byteSize_append, Text.byteSize_append]
    omega
  -- what is attached there is behind the character in front of the place, and not before it
  have before := h.upTo_body chunks' (s := s' ++ [last]) (r := r') (by simp [body']) (by simp)
  have behind := h.upTo_open chunks body (by simp)
  rw [← List.append_assoc _ s', ← text', ends] at before
  rwa [← text, ← offset, ← List.append_assoc, before, List.self_eq_append_right,
    List.append_eq_nil_iff] at behind

/-- Nothing is attached inside a copied run. -/
theorem LaidOut.quiet_of_run (h : b.LaidOut m) (run : b.trace = x ++ (Trace.copied i t ++ y))
    {k : Nat} (lo : 0 < k) (hi : k < Text.byteSize t) :
    m.left (i + k) = [] ∧ m.right (i + k) = [] := by
  obtain ⟨u, ch, v, rfl, from', upto⟩ := Text.exists_char_at hi
  by_cases between : Text.byteSize u = k
  · subst between
    exact h.quiet_between run (by rintro rfl; simp at lo)
  · obtain ⟨pre, c, post, s, r, chunks, body, offset, -⟩ := exists_chunk_of_run run
    have hc : c ∈ b.chunks := by simp [chunks]
    have placed := h.tiled.tiles.placed hc
    have size := Text.add_byteSize_slice placed.start_boundary placed.stop_boundary placed.le
    rw [← placed.copied _ body, Text.byteSize_append, Text.byteSize_cons] at size
    exact (h.chunks c hc).quiet (i + k) (by omega) (by omega)

end Run

/-- A copied body shows each of its offsets. -/
theorem shows_of_reaches {copy : Copy} (hp : Text.isBoundary b.render place = true)
    (mem : copy ∈ b.copies) (reaches : copy.reaches place = true) :
    b.Shows (copy.origin + (place - copy.place)) place := by
  obtain ⟨pre, c, post, t, chunks, body, rfl⟩ := mem_copiesFrom.1 mem
  have whole : c.body = .copied (t ++ []) := by rw [body, List.append_nil]
  have split : b.render = (b.front ++ pre.flatMap Chunk.render ++ c.before) ++
      (t ++ (c.after ++ post.flatMap Chunk.render ++ b.back)) := by
    simp [render, chunks, Chunk.render, body, Body.text]
  simp only [Copy.reaches, Bool.and_eq_true, decide_eq_true_eq] at reaches
  have front : Text.byteSize b.front + Text.byteSize (pre.flatMap Chunk.render ++ c.before) =
      Text.byteSize (b.front ++ pre.flatMap Chunk.render ++ c.before) := by simp
  rw [front] at reaches ⊢
  obtain ⟨k, rfl⟩ := Nat.exists_eq_add_of_le reaches.1
  have stop : Text.isBoundary (t ++ (c.after ++ post.flatMap Chunk.render ++ b.back))
      (Text.byteSize t) = true := Text.isBoundary_iff.2 ⟨t, _, rfl, rfl⟩
  have inner := Text.isBoundary_slice (Text.isBoundary_zero _) stop (i := k) (by omega)
  rw [split, Text.isBoundary_append_add] at hp
  rw [Text.slice_zero, Text.takeBytes_byteSize_append, Nat.zero_add, hp] at inner
  obtain ⟨s, r, rfl, size⟩ := Text.isBoundary_iff.1 inner
  refine ⟨pre, c, post, s, r, chunks, body, ?_, ?_⟩
  · rw [Nat.add_sub_cancel_left, size]
  · rw [Text.byteSize_append _ s, size]

end Buffer

end ComponentEdit
