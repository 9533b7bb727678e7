import ComponentEdit.Proofs.Block.Creation
import ComponentEdit.Proofs.Buffer.Refinement
import ComponentEdit.Proofs.Buffer.Window

/-!
# Blocks in their document

A block is hosted by the layout of its document when that layout mirrors the one of its
snippet. An edit of the block that the snippet accepts is accepted by the document too, so
it is either taken by both or changes nothing (`Block.Hosted.apply`), and the document then
shows the block as the snippet does, but for the slots at its start
(`Block.Hosted.renderFrom_eq`).
-/

namespace ComponentEdit
set_option autoImplicit false

namespace Block

/-- A block that was just edited, with the state of its source. -/
def edited (b : Block) (source : Source) (e : Edit) : Anchored :=
  ⟨{ b with snippet := (e.apply b.snippet).left },
    some { source with buffer := ((e.within b.span).apply source.buffer).left }⟩

/-- A block that replaces no operation replaces none of them. -/
theorem replacement?_of_own {b : Block} (own : b.replacements = []) (op : Operation) :
    b.replacement? op = none := by
  simp [replacement?, own]

/-- What an edit of a block comes to, if its operation is not replaced: the snippet refuses it, the
source is in use, the buffer of the source refuses it, or both take it. -/
theorem apply_inversion {b : Block} {e : Edit} (plain : b.replacement? e.operation = none)
    (source : Source) :
    (∃ err, (e.apply b.snippet).refusal? = some err ∧
        b.apply (some source) e = .refused ⟨b, some source⟩ err) ∨
      (e.apply b.snippet).accepted = true ∧
        (source.access ≠ .free ∧
            b.apply (some source) e = .refused ⟨b, some source⟩ .sourceBorrowed ∨
          source.access = .free ∧
            ((∃ err, ((e.within b.span).apply source.buffer).refusal? = some err ∧
                b.apply (some source) e = .refused ⟨b, some { source with
                  buffer := ((e.within b.span).apply source.buffer).left }⟩ err) ∨
              ((e.within b.span).apply source.buffer).accepted = true ∧
                b.apply (some source) e = .done (b.edited source e))) := by
  have forward : b.apply (some source) e = b.forward source e := by
    simp [apply, plain, Source.held]
  rw [forward, Block.forward]
  cases hs : e.apply b.snippet with
  | mk snippet refusal =>
    cases refusal with
    | some err => exact .inl ⟨err, rfl, rfl⟩
    | none =>
      refine .inr ⟨rfl, ?_⟩
      by_cases free : source.access = .free
      · refine .inr ⟨free, ?_⟩
        cases hp : (e.within b.span).apply source.buffer with
        | mk buffer refusal =>
          cases refusal with
          | some err =>
            exact .inl ⟨err, rfl, by simp [Source.edit, Source.write, free, hp, Attempt.map]⟩
          | none =>
            exact .inr ⟨rfl, by
              simp [Source.edit, Source.write, free, hp, Attempt.map, edited, hs]⟩
      · exact .inl ⟨free, by simp [Source.edit, Source.write, free, Attempt.refused]⟩

/-- An edit of a block whose operations are its own is refused without a change, or taken
by snippet and source, as long as the source does not refuse what the snippet accepts. -/
theorem apply_cases {b : Block} {source : Source} {e : Edit} (own : b.replacements = [])
    (agree : (e.apply b.snippet).accepted = true →
      ((e.within b.span).apply source.buffer).accepted = true) :
    b.apply (some source) e = .done (b.edited source e) ∧ source.access = .free ∧
        (e.apply b.snippet).accepted = true ∨
      ∃ err, b.apply (some source) e = .refused ⟨b, some source⟩ err := by
  rcases apply_inversion (e := e) (replacement?_of_own own _) source with
    ⟨err, -, refused⟩ | ⟨ok, ⟨-, borrowed⟩ | ⟨free, ⟨err, refused, -⟩ | ⟨-, done⟩⟩⟩
  · exact .inr ⟨err, refused⟩
  · exact .inr ⟨.sourceBorrowed, borrowed⟩
  · have taken := agree ok
    simp [Attempt.accepted, refused] at taken
  · exact .inl ⟨done, free, ok⟩

/-- A block whose operations are its own refuses what its snippet refuses, and for that reason, as
long as its source is free and does not refuse what the snippet accepts. -/
theorem refusal_apply {b : Block} {source : Source} {e : Edit} (own : b.replacements = [])
    (free : source.access = .free)
    (agree : (e.apply b.snippet).accepted = true →
      ((e.within b.span).apply source.buffer).accepted = true) :
    (b.apply (some source) e).refusal? = (e.apply b.snippet).refusal? := by
  rcases apply_inversion (e := e) (replacement?_of_own own _) source with
    ⟨err, snippet, refused⟩ | ⟨ok, ⟨busy, -⟩ | ⟨-, ⟨err, refused, -⟩ | ⟨-, done⟩⟩⟩
  · rw [refused, snippet]
    rfl
  · exact absurd free busy
  · have taken := agree ok
    simp [Attempt.accepted, refused] at taken
  · rw [done, Option.isNone_iff_eq_none.1 ok]
    rfl

/-- An edit that a block carries out is taken by its snippet and by its source. -/
theorem eq_edited_of_done {b : Block} {source : Source} {e : Edit} {next : Anchored}
    (own : b.replacements = []) (done : b.apply (some source) e = .done next) :
    next = b.edited source e ∧ source.access = .free ∧ (e.apply b.snippet).accepted = true ∧
      ((e.within b.span).apply source.buffer).accepted = true := by
  rcases apply_inversion (e := e) (replacement?_of_own own _) source with
    ⟨err, -, refused⟩ | ⟨ok, ⟨-, refused⟩ | ⟨free, ⟨err, -, refused⟩ | ⟨taken, done'⟩⟩⟩
  · simp [refused, Attempt.refused, Attempt.done] at done
  · simp [refused, Attempt.refused, Attempt.done] at done
  · simp [refused, Attempt.refused, Attempt.done] at done
  · exact ⟨(congrArg Attempt.left (done.symm.trans done')), free, ok, taken⟩

/-- The layout of the document mirrors that of the snippet of a block that is not empty. -/
structure Hosted (t : Text) (m' : Layout) (b : Block) (m : Layout) : Prop where
  own : b.replacements = []
  fits : b.span.Fits t
  forward : b.span.start < b.span.stop
  base : b.snippet.base = Text.slice t b.span.start b.span.stop
  laid : b.snippet.LaidOut m
  mirrors : m'.Mirrors m b.span.start b.span.length

namespace Hosted
variable {t : Text} {m' m : Layout} {b : Block} {source : Source} {e : Edit}

/-- A block that was just made over a text without edits. -/
theorem created (d : Descriptor) (handler : Handler) {span : Span} (fits : span.Fits t)
    (forward : span.start < span.stop) :
    Hosted t (.ofText t)
      { descriptor := d, span := span, handler := handler,
        snippet := .ofText (Text.slice t span.start span.stop) }
      (.ofText (Text.slice t span.start span.stop)) where
  own := rfl
  fits := fits
  forward := forward
  base := rfl
  laid := Buffer.laidOut_ofText (Text.slice_ne_nil fits.start fits.stop forward)
  mirrors := .ofText fits

theorem size (h : b.Hosted t m' m) :
    Text.byteSize (Text.slice t b.span.start b.span.stop) = b.span.length :=
  Text.byteSize_slice h.fits.start h.fits.stop h.fits.le

theorem length_ne_zero (h : b.Hosted t m' m) : b.span.length ≠ 0 := by
  have := h.forward
  unfold Span.length
  omega

theorem stop_eq (h : b.Hosted t m' m) : b.span.start + b.span.length = b.span.stop := by
  have := h.fits.le
  unfold Span.length
  omega

theorem span_eq (h : b.Hosted t m' m) :
    (⟨b.span.start, b.span.start + b.span.length⟩ : Span) = b.span := by
  rw [h.stop_eq]

/-- The block as its snippet shows it. -/
theorem render_eq (h : b.Hosted t m' m) :
    b.render = m.left 0 ++ m.right 0 ++ m.after 0 (Text.slice t b.span.start b.span.stop) := by
  rw [Block.render, h.laid.render_eq, h.base, Slots.render, Slots.renderFrom_eq_after]

/-- The block as its document shows it. -/
theorem renderFrom_eq (h : b.Hosted t m' m) :
    m'.renderFrom b.span.start (Text.slice t b.span.start b.span.stop) =
      m'.left b.span.start ++ m'.right b.span.start ++
        m.after 0 (Text.slice t b.span.start b.span.stop) := by
  rw [Slots.renderFrom_eq_after, h.mirrors.after_eq h.size]

/-- What the snippet accepts lies in the block. -/
theorem fits_of_accepted (h : b.Hosted t m' m) (ok : (e.apply b.snippet).accepted = true) :
    e.Fits b.span.length := by
  rw [(h.laid.apply e).1, h.base] at ok
  rw [← h.size]
  exact Layout.fits_of_accepts ok

/-- What the snippet accepts, the document accepts. -/
theorem accepted (h : b.Hosted t m' m) (start : m'.sealed b.span.start = false)
    (stop : m'.sealed b.span.stop = false) (ok : (e.apply b.snippet).accepted = true) :
    m'.accepts t (e.within b.span) = true := by
  have fits := h.fits_of_accepted ok
  rw [(h.laid.apply e).1, h.base, ← h.stop_eq] at ok
  rw [← h.stop_eq] at stop
  have boundary := h.fits.stop
  rw [← h.stop_eq] at boundary
  rw [← h.span_eq]
  exact h.mirrors.accepts h.fits.start boundary start stop fits ok

/-- An edit that both take leaves the block hosted. -/
theorem edited (h : b.Hosted t m' m) (size : Nat) (ok : (e.apply b.snippet).accepted = true) :
    Hosted t (m'.effect size (e.within b.span)) { b with snippet := (e.apply b.snippet).left }
      (m.effect b.span.length e) where
  own := h.own
  fits := h.fits
  forward := h.forward
  base := (Buffer.apply_base b.snippet e).trans h.base
  laid := by
    obtain ⟨accepted, laid⟩ := h.laid.apply e
    rw [ok] at accepted
    rw [Layout.apply_of_accepts accepted.symm, h.base, h.size] at laid
    exact laid
  mirrors := by
    have mirrors := h.mirrors.effect size (h.fits_of_accepted ok)
    rw [h.span_eq] at mirrors
    exact mirrors

/-- An edit elsewhere in the document leaves the block hosted. -/
theorem frame {part : Span} {m'' : Layout} (h : b.Hosted t m' m) (out : m'.Outside part m'')
    (apart : part.stop < b.span.start ∨ b.span.stop < part.start) : b.Hosted t m'' m :=
  { h with mirrors := h.mirrors.frame out (by rw [h.stop_eq]; exact apart) }

/-- An edit of a hosted block is taken by snippet and document, or changes nothing. -/
theorem apply (h : b.Hosted t m' m) (laid : source.buffer.LaidOut m') (base : source.buffer.base = t)
    (start : m'.sealed b.span.start = false) (stop : m'.sealed b.span.stop = false) (e : Edit) :
    (b.apply (some source) e = .done (b.edited source e) ∧ e.Fits b.span.length ∧
        ((e.within b.span).apply source.buffer).left.LaidOut
          (m'.effect (Text.byteSize t) (e.within b.span)) ∧
        Hosted t (m'.effect (Text.byteSize t) (e.within b.span))
          { b with snippet := (e.apply b.snippet).left } (m.effect b.span.length e)) ∨
      ∃ err, b.apply (some source) e = .refused ⟨b, some source⟩ err := by
  obtain ⟨accepts, next⟩ := laid.apply (e.within b.span)
  rw [base] at accepts next
  have agree : (e.apply b.snippet).accepted = true →
      ((e.within b.span).apply source.buffer).accepted = true := fun ok => by
    rw [accepts]
    exact h.accepted start stop ok
  rcases apply_cases h.own agree with ⟨done, -, ok⟩ | refused
  · rw [Layout.apply_of_accepts (h.accepted start stop ok)] at next
    exact .inl ⟨done, h.fits_of_accepted ok, next, h.edited _ ok⟩
  · exact .inr refused

end Hosted

end Block

end ComponentEdit
