import ComponentEdit.Proofs.Block.Upstream
import ComponentEdit.Proofs.Buffer.Cuts

/-!
# Where blocks come from

A block over a range of an edited text stands for a part of the base, and that part reads as the
range did (`Buffer.Tiled.slice_of_baseSpan?`). So the snippet of a block starts from the text of
its span (`Block.Moored`). Offsets that the snippet has are offsets of the base behind the start of
the span, in the same order (`Edit.Addresses.within`), and so of an edit that the snippet takes the
document may only say that it is inside a replacement (`Edit.Addresses.refusal`).
-/

namespace ComponentEdit
set_option autoImplicit false

namespace Edit

/-- The offsets of an edit lie between characters of a text, and its range is in order. -/
def Addresses (t : Text) : Edit → Prop
  | .append _ | .prepend _ => True
  | .appendLeft i _ | .appendRight i _ | .prependLeft i _ | .prependRight i _ =>
    Text.isBoundary t i = true
  | .overwrite start stop _ _ =>
    start < stop ∧ Text.isBoundary t start = true ∧ Text.isBoundary t stop = true
  | .remove start stop =>
    start ≤ stop ∧ Text.isBoundary t start = true ∧ Text.isBoundary t stop = true

variable {t : Text} {b : Buffer} {e : Edit}

/-- A buffer takes only edits at offsets of its base. -/
theorem addresses_of_accepted (h : b.Tiled) (ok : (e.apply b).accepted = true) :
    e.Addresses b.base := by
  rw [Attempt.accepted, refusal_apply h, Option.isNone_iff_eq_none, obstacle?,
    Option.or_eq_none_iff, List.findSome?_eq_none_iff] at ok
  obtain ⟨objection, free⟩ := ok
  cases e with
  | append content | prepend content => trivial
  | appendLeft i content | appendRight i content | prependLeft i content | prependRight i content =>
    exact h.boundary_of_obstacle? (free i List.mem_cons_self)
  | overwrite start stop content options =>
    simp only [objection?] at objection
    cases check : b.checkRange start stop with
    | error err => simp [check] at objection
    | ok u =>
      obtain ⟨le, hs, he⟩ := Buffer.checkRange_eq_ok.1 check
      have ne : start ≠ stop := by
        rintro rfl
        simp [check] at objection
      exact ⟨by omega, hs, he⟩
  | remove start stop =>
    simp only [objection?] at objection
    cases check : b.checkRange start stop with
    | error err => simp [check] at objection
    | ok u => exact Buffer.checkRange_eq_ok.1 check

/-- No offset of an edit lies behind the end of the text. -/
theorem Addresses.fits (h : e.Addresses t) : e.Fits (Text.byteSize t) := by
  cases e with
  | append content | prepend content => trivial
  | appendLeft i content | appendRight i content | prependLeft i content | prependRight i content =>
    exact Text.le_byteSize_of_isBoundary h
  | overwrite start stop content options | remove start stop =>
    exact ⟨h.1, Text.le_byteSize_of_isBoundary h.2.2⟩

/-- An edit at offsets of a part of a text is one at offsets of the text. -/
theorem Addresses.within {part : Span} (fits : part.Fits t)
    (h : e.Addresses (Text.slice t part.start part.stop)) : (e.within part).Addresses t := by
  have shift : ∀ {i : Nat}, Text.isBoundary (Text.slice t part.start part.stop) i = true →
      Text.isBoundary t (part.start + i) = true := by
    intro i hi
    have inside := Text.le_byteSize_of_isBoundary hi
    rw [Text.byteSize_slice fits.start fits.stop fits.le] at inside
    have le := fits.le
    rwa [Text.isBoundary_slice fits.start fits.stop (by omega)] at hi
  cases e with
  | append content => exact fits.stop
  | prepend content => exact fits.start
  | appendLeft i content | appendRight i content | prependLeft i content | prependRight i content =>
    exact shift h
  | overwrite start stop content options =>
    exact ⟨Nat.add_lt_add_left h.1 part.start, shift h.2.1, shift h.2.2⟩
  | remove start stop => exact ⟨Nat.add_le_add_left h.1 part.start, shift h.2.1, shift h.2.2⟩

/-- At offsets of the base an edit can only be refused inside a replacement. -/
theorem Addresses.refusal (h : e.Addresses b.base) (tiled : b.Tiled) {err : Error}
    (refused : (e.apply b).refusal? = some err) :
    ∃ line column replaced, err = .splitEditedChunk line column replaced := by
  rw [refusal_apply tiled, obstacle?] at refused
  have objection : e.objection? b = none := by
    cases e with
    | overwrite start stop content options =>
      have check := Buffer.checkRange_eq_ok.2 ⟨Nat.le_of_lt h.1, h.2⟩
      simp [objection?, check, Nat.ne_of_lt h.1]
    | remove start stop =>
      have check := Buffer.checkRange_eq_ok.2 h
      simp [objection?, check]
    | _ => rfl
  have cuts : ∀ i ∈ e.change.cuts, Text.isBoundary b.base i = true := by
    intro i hi
    cases e with
    | append content | prepend content => simp [change, Change.cuts] at hi
    | appendLeft j content | appendRight j content | prependLeft j content
    | prependRight j content =>
      obtain rfl : i = j := by simpa [change, Change.cuts] using hi
      exact h
    | overwrite start stop content options | remove start stop =>
      simp only [change] at hi
      split at hi
      · have ends : i = start ∨ i = stop := by simpa [Change.cuts] using hi
        rcases ends with rfl | rfl
        · exact h.2.1
        · exact h.2.2
      · simp [Change.cuts] at hi
  rw [objection, Option.none_or, List.findSome?_eq_some_iff] at refused
  obtain ⟨pre, i, post, split, met, -⟩ := refused
  have hi := cuts i (by simp [split])
  obtain ⟨c, hc, cross, solid⟩ := tiled.exists_solid hi (by simp [met])
  rw [tiled.obstacle?_of_crosses hi hc cross solid, Option.some.injEq] at met
  exact ⟨_, _, _, met.symm⟩

end Edit

namespace Text
variable {t : Text} {i : Nat} {c : Char}

/-- The character at a boundary is the slice up to the next one. -/
theorem slice_of_charAt (hi : isBoundary t i = true) (char : charAt t i = [c]) :
    isBoundary t (i + c.utf8Size) = true ∧ slice t i (i + c.utf8Size) = [c] := by
  obtain ⟨p, r, rfl, rfl⟩ := isBoundary_iff.1 hi
  rw [charAt, dropBytes_byteSize_append] at char
  obtain ⟨d, r, rfl⟩ := List.exists_cons_of_ne_nil (l := r) (by rintro rfl; simp at char)
  obtain rfl : d = c := by simpa using char
  constructor
  · exact isBoundary_iff.2 ⟨p ++ [d], r, by simp, by simp⟩
  · have whole := slice_parts p [d] r
    simpa using whole

end Text

namespace Buffer
variable {b : Buffer} {part shown : Span}

/-- A place of the base that is shown lies between two characters. -/
theorem Shows.boundary (h : b.Tiled) {i place : Nat} (shows : b.Shows i place) :
    Text.isBoundary b.base i = true := by
  obtain ⟨pre, c, post, s, r, chunks, body, rfl, -⟩ := shows
  exact (h.tiles.placed (c := c) (by simp [chunks])).boundary_of_copied body

/-- A run that is copied from an offset is the text of the base from there on. -/
theorem Tiled.slice_of_run (h : b.Tiled) {x y : Trace} {i : Nat} {t : Text}
    (run : b.trace = x ++ (Trace.copied i t ++ y)) (hi : Text.isBoundary b.base i = true) :
    Text.isBoundary b.base (i + Text.byteSize t) = true ∧
      Text.slice b.base i (i + Text.byteSize t) = t := by
  induction t generalizing x i with
  | nil => simp [hi]
  | cons c t ih =>
    have first : b.trace = x ++ (c, .copied i) :: (Trace.copied (i + c.utf8Size) t ++ y) := run
    have later : b.trace = (x ++ [(c, .copied i)]) ++ (Trace.copied (i + c.utf8Size) t ++ y) := by
      rw [first, List.append_assoc, List.singleton_append]
    obtain ⟨next, char⟩ := Text.slice_of_charAt hi (h.copied_of_trace_eq first).2
    obtain ⟨stop, rest⟩ := ih later next
    rw [Text.byteSize_cons, ← Nat.add_assoc]
    refine ⟨stop, ?_⟩
    rw [← Text.slice_append_slice hi next stop (by omega) (by omega), char, rest]
    rfl

/-- A range that has a base span reads as that span of the base. -/
theorem Tiled.slice_of_baseSpan? (h : b.Tiled) (fits : shown.Fits b.render)
    (found : b.baseSpan? shown = some part) : part.Fits b.base ∧
      Text.slice b.base part.start part.stop = Text.slice b.render shown.start shown.stop := by
  have ex := exhibits_of_baseSpan? fits found
  have size : Text.byteSize (Text.slice b.render shown.start shown.stop) = shown.length :=
    Text.byteSize_slice fits.start fits.stop fits.le
  have start : Text.isBoundary b.base part.start = true :=
    (ex.shows 0 (Text.isBoundary_zero _)).boundary h
  by_cases forward : shown.start < shown.stop
  · obtain ⟨-, traced⟩ := (baseSpan?_eq_some_iff (s := part) forward).1 found
    obtain ⟨x, y, run, -⟩ := exists_run fits.le fits.start fits.stop traced
    obtain ⟨stop, text⟩ := h.slice_of_run run start
    rw [size, ← ex.stop] at stop text
    exact ⟨⟨ex.le, start, stop⟩, text⟩
  · have empty : part.stop = part.start := by
      have stop := ex.stop
      unfold Span.length at stop
      omega
    have empty' : shown.stop = shown.start := by
      have := fits.le
      omega
    refine ⟨⟨ex.le, start, by rw [empty]; exact start⟩, ?_⟩
    rw [empty, empty', Text.slice_self, Text.slice_self]

end Buffer

namespace Block
variable {t : Text} {b : Block} {source : Source} {e : Edit}

/-- A block has a place in a text, and its snippet is made from the text there. -/
structure Moored (t : Text) (b : Block) : Prop where
  fits : b.span.Fits t
  text : b.snippet.base = Text.slice t b.span.start b.span.stop
  tiled : b.snippet.Tiled

/-- A block has its place from the start. -/
theorem moored_of_create {d : Descriptor} {range : Option Span} (h : source.buffer.Tiled)
    (created : create source d range = .ok b) : b.Moored source.buffer.base := by
  obtain ⟨-, shows, found, snippet⟩ := create_inversion created
  obtain ⟨fits, text⟩ := h.slice_of_baseSpan? shows found
  refine ⟨fits, ?_, ?_⟩
  · rw [snippet, text]
    rfl
  · rw [snippet]
    exact Buffer.tiled_ofText _

/-- The place of a block does not depend on what it is called or which operations it replaces. -/
theorem Moored.congr {b' : Block} (h : b.Moored t) (span : b'.span = b.span)
    (snippet : b'.snippet = b.snippet) : b'.Moored t where
  fits := by rw [span]; exact h.fits
  text := by rw [snippet, span]; exact h.text
  tiled := by rw [snippet]; exact h.tiled

/-- Offsets that the snippet takes are offsets of the text. -/
theorem Moored.addresses (h : b.Moored t) (ok : (e.apply b.snippet).accepted = true) :
    (e.within b.span).Addresses t := by
  have own := Edit.addresses_of_accepted h.tiled ok
  rw [h.text] at own
  exact own.within h.fits

/-- What an edit of a block leaves: all as it was, the cuts that the buffer of the source got to
make, or the edited block. -/
theorem left_cases (b : Block) (source : Option Source) (e : Edit) :
    (b.apply source e).left = ⟨b, source⟩ ∨ ∃ s, source = some s ∧
      ((b.apply source e).left =
          ⟨b, some { s with buffer := ((e.within b.span).apply s.buffer).left }⟩ ∨
        (b.apply source e).left = b.edited s e) := by
  cases replaced : b.replacement? e.operation with
  | some r =>
    left
    simp only [apply, replaced]
    cases r e <;> rfl
  | none =>
    cases source with
    | none =>
      left
      simp [apply, replaced, Source.held]
    | some s =>
      rcases apply_inversion replaced s with
        ⟨err, -, refused⟩ | ⟨-, ⟨-, refused⟩ | ⟨-, ⟨err, -, refused⟩ | ⟨-, done⟩⟩⟩
      · exact .inl (by rw [refused]; rfl)
      · exact .inl (by rw [refused]; rfl)
      · exact .inr ⟨s, rfl, .inl (by rw [refused]; rfl)⟩
      · exact .inr ⟨s, rfl, .inr (by rw [done]; rfl)⟩

/-- A block keeps its place when it is edited. -/
theorem Moored.apply (h : b.Moored t) (source : Option Source) (e : Edit) :
    (b.apply source e).left.block.Moored t := by
  rcases left_cases b source e with same | ⟨s, -, cut | done⟩
  · rw [same]
    exact h
  · rw [cut]
    exact h
  · rw [done]
    refine ⟨h.fits, ?_, h.tiled.apply e⟩
    show (e.apply b.snippet).left.base = _
    rw [Buffer.apply_base, h.text]
    rfl

end Block

/-- A source has a buffer over a text, in any state that edits can bring about. -/
structure Source.Over (t : Text) (s : Source) : Prop where
  tiled : s.buffer.Tiled
  base : s.buffer.base = t

namespace Source.Over
variable {t : Text} {s : Source} {e : Edit}

theorem reached {filename : Option String} {upstream : List Edit}
    (buffer : s.buffer = { (Buffer.ofText t).run upstream with filename }) : s.Over t where
  tiled := by
    rw [buffer]
    exact Buffer.tiled_reached t filename upstream
  base := by
    rw [buffer]
    exact Buffer.run_base (Buffer.ofText t) upstream

theorem of_apply (h : s.Over t) (e : Edit) :
    Source.Over t { s with buffer := (e.apply s.buffer).left } :=
  ⟨h.tiled.apply e, (Buffer.apply_base _ _).trans h.base⟩

theorem edit (h : s.Over t) (e : Edit) : (s.edit e).left.Over t := by
  unfold Source.edit Source.write
  by_cases free : s.access = .free
  · simp only [free, if_true]
    have edited := h.of_apply e
    exact ⟨edited.tiled, edited.base⟩
  · simp only [free, if_false]
    exact h

/-- Editing a block leaves a buffer over the same text. -/
theorem apply_block {source : Option Source} (h : ∀ s, source = some s → s.Over t) (b : Block)
    (e : Edit) {s' : Source} (held : (b.apply source e).left.source = some s') : s'.Over t := by
  rcases Block.left_cases b source e with same | ⟨s, there, cut | done⟩
  · rw [same] at held
    exact h s' held
  · rw [cut] at held
    cases held
    exact (h s there).of_apply _
  · rw [done] at held
    cases held
    exact (h s there).of_apply _

end Source.Over

end ComponentEdit
