import ComponentEdit.Proofs.Buffer.Tiling

/-!
# Traces

The trace of a buffer is its rendered text, character by character, with where each of them
comes from (`Buffer.text_trace`): it is attached to an offset, copied from the base, or part of
what stands in place of a stretch of the base. A copied character is the character of the base
at its offset (`Buffer.Tiled.copied_of_trace_eq`), and it is shown in the body of a copied
chunk, behind all that is rendered before it there (`Buffer.exists_chunk_of_trace_eq`).
-/

namespace ComponentEdit
set_option autoImplicit false

/-- Where a character of a rendered text comes from. -/
inductive Origin where
  /-- It is attached to an offset. -/
  | attached
  /-- It is the character of the base at an offset. -/
  | copied (offset : Nat)
  /-- It is part of what stands in place of the base from `start` on, and may be the character
  that opens a line there. -/
  | replaced (start : Nat) (name : Option Text) (opens : Bool)
deriving DecidableEq, Repr

/-- A text whose characters have origins. -/
abbrev Trace := List (Char × Origin)

namespace Trace

/-- The characters alone. -/
def text (tr : Trace) : Text := tr.map (·.1)

/-- Attached text. -/
def attached (t : Text) : Trace := t.map (·, .attached)

/-- Text that is copied from the offset `i` on. -/
def copied : Nat → Text → Trace
  | _, [] => []
  | i, c :: t => (c, .copied i) :: copied (i + c.utf8Size) t

/-- What stands in place of the base from `start` on; `opens` is true at the start of a line. -/
def replaced (start : Nat) (name : Option Text) : (opens : Bool) → Text → Trace
  | _, [] => []
  | opens, c :: t => (c, .replaced start name opens) :: replaced start name (c == '\n') t

end Trace

/-- The rendered text of a chunk with its origins. -/
def Chunk.trace (base : Text) (c : Chunk) : Trace :=
  Trace.attached c.before ++
    (match c.body with
    | .copied t => Trace.copied c.start t
    | .replaced t named =>
      Trace.replaced c.start (if named then some (Text.slice base c.start c.stop) else none) true t) ++
    Trace.attached c.after

/-- The rendered text of a buffer with its origins. -/
def Buffer.trace (b : Buffer) : Trace :=
  Trace.attached b.front ++ b.chunks.flatMap (Chunk.trace b.base) ++ Trace.attached b.back

namespace Trace
variable {i start : Nat} {name : Option Text} {t : Text}

@[simp] theorem text_nil : text [] = [] := rfl

@[simp] theorem text_cons (c : Char) (o : Origin) (tr : Trace) : text ((c, o) :: tr) = c :: text tr :=
  rfl

@[simp] theorem text_append (x y : Trace) : text (x ++ y) = text x ++ text y := by simp [text]

/-- A trace is parted where its text is. -/
theorem exists_append_of_text {tr : Trace} {s t : Text} (h : tr.text = s ++ t) :
    ∃ x y : Trace, tr = x ++ y ∧ x.text = s ∧ y.text = t :=
  List.map_eq_append_iff.1 h

@[simp] theorem text_attached (t : Text) : (attached t).text = t := by
  simp [attached, text, Function.comp_def]

@[simp] theorem text_copied (i : Nat) (t : Text) : (copied i t).text = t := by
  induction t generalizing i with
  | nil => rfl
  | cons c t ih => simp [copied, ih]

theorem copied_append (i : Nat) (s t : Text) :
    copied i (s ++ t) = copied i s ++ copied (i + Text.byteSize s) t := by
  induction s generalizing i with
  | nil => simp [copied]
  | cons c s ih => simp [copied, ih, Nat.add_assoc]

@[simp] theorem text_replaced (start : Nat) (name : Option Text) (opens : Bool) (t : Text) :
    (replaced start name opens t).text = t := by
  induction t generalizing opens with
  | nil => rfl
  | cons c t ih => simp [replaced, ih]

theorem mem_attached {p : Char × Origin} (h : p ∈ attached t) : p.2 = .attached := by
  obtain ⟨c, -, rfl⟩ := List.mem_map.1 h
  rfl

theorem copied_not_mem_attached {c : Char} : (c, Origin.copied i) ∉ attached t := fun h => by
  cases mem_attached h

theorem mem_replaced {opens : Bool} {p : Char × Origin} (h : p ∈ replaced start name opens t) :
    ∃ opens', p.2 = .replaced start name opens' := by
  induction t generalizing opens with
  | nil => simp [replaced] at h
  | cons c t ih =>
    rcases List.mem_cons.1 h with rfl | h
    · exact ⟨opens, rfl⟩
    · exact ih h

/-- In front of a character of a copied text stands what its offset says. -/
theorem copied_eq_append_cons {x y : Trace} {c : Char} {o : Origin}
    (h : copied i t = x ++ (c, o) :: y) :
    ∃ s r, t = s ++ c :: r ∧ o = .copied (i + Text.byteSize s) ∧ x = copied i s ∧
      y = copied (i + Text.byteSize (s ++ [c])) r := by
  induction t generalizing i x with
  | nil => simp [copied] at h
  | cons d t ih =>
    cases x with
    | nil =>
      simp only [copied, List.nil_append, List.cons.injEq, Prod.mk.injEq] at h
      obtain ⟨⟨rfl, rfl⟩, rfl⟩ := h
      exact ⟨[], t, rfl, rfl, rfl, by simp⟩
    | cons p x =>
      simp only [copied, List.cons_append, List.cons.injEq] at h
      obtain ⟨rfl, h⟩ := h
      obtain ⟨s, r, rfl, rfl, rfl, rfl⟩ := ih h
      exact ⟨d :: s, r, rfl, by simp [Nat.add_assoc], rfl, by simp [Nat.add_assoc]⟩

section Split
variable {a b x y : Trace} {p : Char × Origin}

/-- An element that is not in the first of two lists is in the second. -/
theorem append_eq_append_cons_right (h : a ++ b = x ++ p :: y) (no : p ∉ a) :
    ∃ x', x = a ++ x' ∧ b = x' ++ p :: y := by
  rcases List.append_eq_append_iff.1 h with ⟨x', rfl, rfl⟩ | ⟨a', rfl, eq⟩
  · exact ⟨x', rfl, rfl⟩
  · cases a' with
    | nil => exact ⟨[], by simp, by simpa using eq.symm⟩
    | cons q a' =>
      simp only [List.cons_append, List.cons.injEq] at eq
      exact absurd (by simp [eq.1]) no

/-- An element that is not in the second of two lists is in the first. -/
theorem append_eq_append_cons_left (h : a ++ b = x ++ p :: y) (no : p ∉ b) :
    ∃ y', a = x ++ p :: y' ∧ y = y' ++ b := by
  rcases List.append_eq_append_iff.1 h with ⟨x', rfl, rfl⟩ | ⟨a', rfl, eq⟩
  · exact absurd (by simp) no
  · cases a' with
    | nil => exact absurd (by simpa using (congrArg (p ∈ ·) eq).mp List.mem_cons_self) no
    | cons q a' =>
      simp only [List.cons_append, List.cons.injEq] at eq
      exact ⟨a', by rw [eq.1], eq.2⟩

end Split

end Trace

namespace Chunk
variable {base : Text} {c : Chunk}

@[simp] theorem text_trace (base : Text) (c : Chunk) : (c.trace base).text = c.render := by
  cases hb : c.body <;> simp [trace, render, hb, Body.text]

/-- A copied character of a chunk is shown in its body, which is copied. -/
theorem trace_eq_append_cons {x y : Trace} {ch : Char} {i : Nat}
    (h : c.trace base = x ++ (ch, .copied i) :: y) :
    ∃ s r, c.body = .copied (s ++ ch :: r) ∧ i = c.start + Text.byteSize s ∧
      x.text = c.before ++ s ∧ y.text = r ++ c.after := by
  unfold trace at h
  obtain ⟨y', shown, rfl⟩ := Trace.append_eq_append_cons_left h Trace.copied_not_mem_attached
  obtain ⟨x', rfl, own⟩ :=
    Trace.append_eq_append_cons_right shown Trace.copied_not_mem_attached
  cases hb : c.body with
  | copied t =>
    rw [hb] at own
    obtain ⟨s, r, rfl, eq, rfl, rfl⟩ := Trace.copied_eq_append_cons own
    simp only [Origin.copied.injEq] at eq
    exact ⟨s, r, rfl, eq, by simp, by simp⟩
  | replaced t named =>
    rw [hb] at own
    have mem : (ch, Origin.copied i) ∈ x' ++ (ch, .copied i) :: y' := by simp
    rw [← own] at mem
    obtain ⟨opens, eq⟩ := Trace.mem_replaced mem
    cases eq

end Chunk

namespace Buffer
variable {b : Buffer}

theorem text_flatMap_trace (base : Text) (cs : List Chunk) :
    Trace.text (cs.flatMap (Chunk.trace base)) = cs.flatMap Chunk.render := by
  induction cs with
  | nil => rfl
  | cons c cs ih => simp [ih]

/-- The characters of the trace are the rendered text. -/
@[simp] theorem text_trace (b : Buffer) : b.trace.text = b.render := by
  simp [trace, render, text_flatMap_trace]

/-- A copied character of a row of chunks is shown in one of them. -/
theorem exists_chunk_of_flatMap_trace {base : Text} {cs : List Chunk} {x y : Trace} {ch : Char}
    {i : Nat} (h : cs.flatMap (Chunk.trace base) = x ++ (ch, .copied i) :: y) :
    ∃ pre c post s r, cs = pre ++ c :: post ∧ c.body = .copied (s ++ ch :: r) ∧
      i = c.start + Text.byteSize s ∧ x.text = pre.flatMap Chunk.render ++ c.before ++ s := by
  induction cs generalizing x with
  | nil => simp at h
  | cons c cs ih =>
    rw [List.flatMap_cons] at h
    rcases List.append_eq_append_iff.1 h with ⟨x', rfl, behind⟩ | ⟨own, front, rest⟩
    · obtain ⟨pre, d, post, s, r, rfl, body, place, text⟩ := ih behind
      exact ⟨c :: pre, d, post, s, r, rfl, body, place, by simp [text]⟩
    · cases own with
      | nil =>
        obtain ⟨pre, d, post, s, r, rfl, body, place, text⟩ := ih (x := []) (by simpa using rest.symm)
        refine ⟨c :: pre, d, post, s, r, rfl, body, place, ?_⟩
        rw [List.append_nil] at front
        rw [← front, Chunk.text_trace, List.flatMap_cons]
        simpa using text
      | cons p own =>
        simp only [List.cons_append, List.cons.injEq] at rest
        rw [← rest.1] at front
        obtain ⟨s, r, body, place, text, -⟩ := Chunk.trace_eq_append_cons front
        exact ⟨[], c, cs, s, r, rfl, body, place, by simp [text]⟩

/-- A copied character is shown in the body of a copied chunk. -/
theorem exists_chunk_of_trace_eq {x y : Trace} {ch : Char} {i : Nat}
    (h : b.trace = x ++ (ch, .copied i) :: y) :
    ∃ pre c post s r, b.chunks = pre ++ c :: post ∧ c.body = .copied (s ++ ch :: r) ∧
      i = c.start + Text.byteSize s ∧
      x.text = b.front ++ pre.flatMap Chunk.render ++ c.before ++ s := by
  obtain ⟨y', shown, rfl⟩ := Trace.append_eq_append_cons_left h Trace.copied_not_mem_attached
  obtain ⟨x', rfl, own⟩ :=
    Trace.append_eq_append_cons_right shown Trace.copied_not_mem_attached
  obtain ⟨pre, c, post, s, r, chunks, body, place, text⟩ := exists_chunk_of_flatMap_trace own
  exact ⟨pre, c, post, s, r, chunks, body, place, by simp [text]⟩

/-- A copied character is the character of the base at its offset. -/
theorem Tiled.copied_of_trace_eq (h : b.Tiled) {x y : Trace} {ch : Char} {i : Nat}
    (eq : b.trace = x ++ (ch, .copied i) :: y) :
    Text.isBoundary b.base i = true ∧ Text.charAt b.base i = [ch] := by
  obtain ⟨pre, c, post, s, r, chunks, body, rfl, -⟩ := exists_chunk_of_trace_eq eq
  have placed := h.tiles.placed (c := c) (by simp [chunks])
  obtain ⟨p, q, base, lo, -⟩ := placed.exists_around body
  rw [base, lo, Text.isBoundary_append_add, Text.charAt_append_add, List.append_assoc]
  exact ⟨Text.isBoundary_iff.2 ⟨s, _, rfl, rfl⟩, by simp [Text.charAt]⟩

end Buffer

end ComponentEdit
