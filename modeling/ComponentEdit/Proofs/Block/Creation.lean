import ComponentEdit.Block.Basic
import ComponentEdit.Proofs.Buffer.Weave

/-!
# Blocks of a text without edits

In a buffer without edits every range of the text is where it was (`baseSpan?_ofText`).
So a block can be made over each range that fits the text, and over no other, and it
starts out with that part of the text (`Block.create_unedited_iff`).
-/

namespace ComponentEdit
set_option autoImplicit false

namespace Buffer
variable {t : Text} {range : Span}

@[simp] theorem render_ofText (t : Text) : (ofText t).render = t := by
  simp [render, ofText, Chunk.ofText, Chunk.render, Body.text]

@[simp] theorem fragments_ofText (t : Text) : (ofText t).fragments =
    [.inserted [], .inserted [], ⟨Text.byteSize t, some 0⟩, .inserted [], .inserted []] := rfl

/-- A range of a text without edits maps to itself. -/
theorem baseSpan?_ofText (le : range.start ≤ range.stop) (hi : range.stop ≤ Text.byteSize t) :
    (ofText t).baseSpan? range = some range := by
  obtain ⟨start, stop⟩ := range
  simp only at le hi
  by_cases empty : stop ≤ start
  · have eq : start = stop := Nat.le_antisymm le empty
    subst eq
    by_cases first : start = 0 <;>
      simp [baseSpan?, Span.isEmpty, Fragment.locate, Fragment.inserted, first, hi]
  · have low : min stop (Text.byteSize t) = stop := Nat.min_eq_left hi
    have behind : stop ≤ max start (Text.byteSize t) := by omega
    simp [baseSpan?, Span.isEmpty, Span.length, Fragment.follow, Fragment.inserted, empty, low,
      behind]

end Buffer

/-- A buffer that is not being written can be read. -/
theorem Source.read_eq_ok_iff {source : Source} {b : Buffer} :
    source.read = .ok b ↔ source.access ≠ .writing ∧ source.buffer = b := by
  by_cases writing : source.access = .writing <;> simp [read, writing]

namespace Block
variable {t : Text} {f : Option String} {source : Source} {d : Descriptor} {range : Option Span}
  {b : Block}

/-- No block is made while the buffer is being written. -/
theorem create_of_writing (writing : source.access = .writing) :
    create source d range = .error .sourceBorrowed := by
  simp [create, Source.read, writing, bind, Except.bind]

/-- A block is made if its range lies between boundaries of the rendered text and has a base span,
and what is wrong with the range otherwise is told in that order. -/
theorem create_cases (readable : source.access ≠ .writing) (d : Descriptor)
    (range : Option Span) :
    let text := source.buffer.render
    let shown := resolve text d range
    (¬shown.Fits text ∧ create source d range =
        .error (.invalidOffsets shown.start shown.stop (Text.byteSize text))) ∨
      (shown.Fits text ∧ source.buffer.baseSpan? shown = none ∧
        create source d range = .error (.editedRange shown.start shown.stop)) ∨
      ∃ origin, shown.Fits text ∧ source.buffer.baseSpan? shown = some origin ∧
        create source d range = .ok
          { descriptor := d, span := origin,
            snippet := .ofText (Text.slice text shown.start shown.stop) } := by
  intro text shown
  simp only [create, Source.read, readable, if_false, bind, Except.bind]
  cases part : Text.slice? text shown.start shown.stop with
  | none =>
    have misfit : ¬shown.Fits text := fun fits => by
      have read := Text.slice?_eq_some_iff.2 ⟨fits.le, fits.start, fits.stop, rfl⟩
      simp [part] at read
    exact .inl ⟨misfit, rfl⟩
  | some content =>
    obtain ⟨le, hs, he, rfl⟩ := Text.slice?_eq_some_iff.1 part
    refine .inr ?_
    cases found : source.buffer.baseSpan? shown with
    | none => exact .inl ⟨⟨le, hs, he⟩, rfl, rfl⟩
    | some origin => exact .inr ⟨origin, ⟨le, hs, he⟩, rfl, rfl⟩

/-- A block is made over a range that has a base span, from the text that is rendered there. -/
theorem create_inversion (created : create source d range = .ok b) :
    let shown := resolve source.buffer.render d range
    b.replacements = [] ∧ shown.Fits source.buffer.render ∧
      source.buffer.baseSpan? shown = some b.span ∧
      b.snippet = .ofText (Text.slice source.buffer.render shown.start shown.stop) := by
  intro shown
  by_cases writing : source.access = .writing
  · simp [create_of_writing writing] at created
  · rcases create_cases writing d range with ⟨-, eq⟩ | ⟨-, -, eq⟩ | ⟨origin, fits, found, eq⟩
    · simp [eq] at created
    · simp [eq] at created
    · rw [eq, Except.ok.injEq] at created
      subst created
      exact ⟨rfl, fits, found, rfl⟩

/-- What a block over a range of an unedited text is. -/
theorem create_unedited_iff (unedited : source.read = .ok { Buffer.ofText t with filename := f }) :
    create source d range = .ok b ↔
      (resolve t d range).Fits t ∧
        b = { descriptor := d, span := resolve t d range
              snippet := .ofText
                (Text.slice t (resolve t d range).start (resolve t d range).stop) } := by
  obtain ⟨readable, buffer⟩ := Source.read_eq_ok_iff.1 unedited
  have text : source.buffer.render = t := by rw [buffer]; exact Buffer.render_ofText t
  have span : (resolve t d range).Fits t →
      source.buffer.baseSpan? (resolve t d range) = some (resolve t d range) := fun fits => by
    rw [buffer]
    exact Buffer.baseSpan?_ofText fits.le (Text.le_byteSize_of_isBoundary fits.stop)
  have cases := create_cases readable d range
  rw [text] at cases
  rcases cases with ⟨misfit, eq⟩ | ⟨fits, found, eq⟩ | ⟨origin, fits, found, eq⟩
  · simp [eq, misfit]
  · simp [span fits] at found
  · rw [span fits, Option.some.injEq] at found
    simp [eq, fits, ← found, eq_comm]

end Block

end ComponentEdit
