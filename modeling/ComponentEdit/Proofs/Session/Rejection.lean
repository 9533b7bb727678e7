import ComponentEdit.Proofs.Block.InPlace
import ComponentEdit.Proofs.Session.Interleaving

/-!
# Which edits of blocks are refused

Blocks that do not overlap, though they may touch or be empty, judge their edits alone.
Inside each of them the document can be cut where the block's snippet can, whatever the
other blocks do and whatever is attached or cut at its edges (`Block.InStep`,
`Session.InStep.edit`). So the document refuses nothing that the snippet has accepted, and
an edit is refused exactly if the snippet refuses it, for the same reason
(`refusal_eq_snippet_refusal`).
-/

namespace ComponentEdit
set_option autoImplicit false

/-- A buffer of `t` that is laid out as `m` if `t` has characters. Without characters there is
nothing to cut, and the layout does not matter. -/
structure Buffer.Follows (t : Text) (m : Layout) (b : Buffer) : Prop where
  base : b.base = t
  filled : t ≠ [] → b.LaidOut m
  void : t = [] → ∃ (s : Seam) (filename : Option String), b = s.buffer filename

theorem Buffer.follows_ofText (t : Text) (filename : Option String) :
    Buffer.Follows t (.ofText t) { Buffer.ofText t with filename := filename } where
  base := rfl
  filled ne := (Buffer.laidOut_ofText ne).renamed filename
  void nil := by
    subst nil
    exact ⟨{}, filename, rfl⟩

namespace Block

/-- Inside of its span the document can be cut where the snippet can: it has a layout with the same
cuts there, or nothing to be cut. -/
structure InStep (t : Text) (m' : Layout) (b : Block) : Prop where
  own : b.replacements = []
  fits : b.span.Fits t
  filled : b.span.start < b.span.stop → ∃ m : Layout,
    b.snippet.base = Text.slice t b.span.start b.span.stop ∧ b.snippet.LaidOut m ∧
      m'.Aligned m b.span.start b.span.length
  empty : b.span.start = b.span.stop → ∃ s : Seam, b.snippet = s.buffer none

namespace InStep
variable {t : Text} {m' m'' : Layout} {b : Block} {e : Edit}

/-- A block that was just made over a text without edits. -/
theorem created (fresh : Session.Fresh t b) : b.InStep t (.ofText t) := by
  obtain ⟨fits, d, handler, eq⟩ := fresh
  have snippet : b.snippet = .ofText (Text.slice t b.span.start b.span.stop) := by rw [eq]
  refine ⟨by rw [eq], fits, fun forward => ?_, fun empty => ?_⟩
  · refine ⟨_, by rw [snippet]; rfl, ?_, .ofText fits⟩
    rw [snippet]
    exact Buffer.laidOut_ofText (Text.slice_ne_nil fits.start fits.stop forward)
  · rw [snippet, empty, Text.slice_self]
    exact ⟨{}, rfl⟩

theorem stop_eq (h : b.InStep t m') : b.span.start + b.span.length = b.span.stop := by
  have := h.fits.le
  unfold Span.length
  omega

theorem span_eq (h : b.InStep t m') :
    (⟨b.span.start, b.span.start + b.span.length⟩ : Span) = b.span := by
  rw [h.stop_eq]

theorem length_of_empty (empty : b.span.start = b.span.stop) : b.span.length = 0 := by
  unfold Span.length
  omega

/-- What the snippet accepts lies in the block. -/
theorem fits_of_accepted (h : b.InStep t m') (ok : (e.apply b.snippet).accepted = true) :
    e.Fits b.span.length := by
  rcases Nat.lt_or_eq_of_le h.fits.le with forward | empty
  · obtain ⟨m, base, laid, -⟩ := h.filled forward
    rw [(laid.apply e).1, base] at ok
    have fits := Layout.fits_of_accepts ok
    rwa [Text.byteSize_slice h.fits.start h.fits.stop h.fits.le] at fits
  · obtain ⟨s, snippet⟩ := h.empty empty
    rw [length_of_empty empty]
    rw [snippet] at ok
    exact (hollow_apply s none e).1.1 ok

/-- What the snippet accepts, a layout of the document accepts. -/
theorem accepts (h : b.InStep t m') (start : m'.sealed b.span.start = false)
    (stop : m'.sealed b.span.stop = false) (ok : (e.apply b.snippet).accepted = true) :
    m'.accepts t (e.within b.span) = true := by
  have fits := h.fits_of_accepted ok
  rcases Nat.lt_or_eq_of_le h.fits.le with forward | empty
  · obtain ⟨m, base, laid, aligned⟩ := h.filled forward
    rw [(laid.apply e).1, base, ← h.stop_eq] at ok
    have boundary := h.fits.stop
    rw [← h.stop_eq] at stop boundary
    rw [← h.span_eq]
    exact aligned.accepts h.fits.start boundary start stop fits ok
  · rw [length_of_empty empty] at fits
    exact Seamed.accepts_of_empty empty (Layout.admits_iff.2 ⟨h.fits.start, start⟩) fits

/-- What the snippet accepts, the document accepts, and follows the layout in which it is done. -/
theorem taken (h : b.InStep t m') {doc : Buffer} (follows : doc.Follows t m')
    (start : m'.sealed b.span.start = false) (stop : m'.sealed b.span.stop = false)
    (ok : (e.apply b.snippet).accepted = true) :
    ((e.within b.span).apply doc).accepted = true ∧
      ((e.within b.span).apply doc).left.Follows t
        (m'.effect (Text.byteSize t) (e.within b.span)) := by
  have base : ((e.within b.span).apply doc).left.base = t :=
    (Buffer.apply_base _ _).trans follows.base
  by_cases nil : t = []
  · obtain ⟨s, filename, eq⟩ := follows.void nil
    have bound : b.span.stop ≤ 0 := by
      have := Text.le_byteSize_of_isBoundary h.fits.stop
      rwa [nil] at this
    have le := h.fits.le
    have span : b.span = ⟨0, 0⟩ := by
      cases hb : b.span with
      | mk lo hi => simp_all
    have fits := h.fits_of_accepted ok
    rw [span] at fits ⊢
    have inside := Seamed.fits_within_hollow fits
    obtain ⟨accepted, left⟩ := hollow_apply s filename (e.within ⟨0, 0⟩)
    rw [← eq] at accepted left
    rw [span] at base
    exact ⟨accepted.2 inside, base, fun ne => absurd nil ne, fun _ => ⟨_, _, left inside⟩⟩
  · obtain ⟨accepted, laid⟩ := (follows.filled nil).apply (e.within b.span)
    have ok' := h.accepts start stop ok
    rw [follows.base] at accepted laid
    rw [Layout.apply_of_accepts ok'] at laid
    exact ⟨accepted.trans ok', base, fun _ => laid, fun e => absurd e nil⟩

/-- An edit that both take leaves the block in step. -/
theorem edited (h : b.InStep t m') (size : Nat) (ok : (e.apply b.snippet).accepted = true) :
    InStep t (m'.effect size (e.within b.span)) { b with snippet := (e.apply b.snippet).left } where
  own := h.own
  fits := h.fits
  filled forward := by
    obtain ⟨m, base, laid, aligned⟩ := h.filled forward
    obtain ⟨accepted, next⟩ := laid.apply e
    rw [ok] at accepted
    rw [Layout.apply_of_accepts accepted.symm, base,
      Text.byteSize_slice h.fits.start h.fits.stop h.fits.le] at next
    have aligned' := aligned.effect size e
    rw [h.span_eq] at aligned'
    exact ⟨_, (Buffer.apply_base b.snippet e).trans base, next, aligned'⟩
  empty eq := by
    obtain ⟨s, snippet⟩ := h.empty eq
    have fits := h.fits_of_accepted ok
    rw [length_of_empty eq] at fits
    exact ⟨_, by rw [snippet]; exact (hollow_apply s none e).2 fits⟩

/-- An edit of a part that the block at most touches leaves it in step. -/
theorem frame {part : Span} (h : b.InStep t m') (out : m'.Outside part m'')
    (apart : part.stop ≤ b.span.start ∨ b.span.stop ≤ part.start) : b.InStep t m'' :=
  { h with
    filled := fun forward => by
      obtain ⟨m, base, laid, aligned⟩ := h.filled forward
      exact ⟨m, base, laid, aligned.frame out (by rw [h.stop_eq]; exact apart)⟩ }

end InStep

end Block

namespace Session

/-- A session whose blocks, which do not overlap, are in step with the document, which is free. -/
structure InStep (t : Text) (m' : Layout) (s : Session) : Prop where
  source : ∃ source, s.source? = some source ∧ source.access = .free ∧ source.buffer.Follows t m'
  clean : m'.Clean t (s.blocks.map Block.span)
  apart : Span.Apart (s.blocks.map Block.span)
  blocks : ∀ (k : Nat) (b : Block), s.blocks[k]? = some b → b.InStep t m'

namespace InStep
variable {t : Text} {m' : Layout} {s : Session} {k : Nat} {b : Block}

/-- The edges of a block are not inside a replacement. -/
theorem unsealed (h : InStep t m' s) (hb : s.blocks[k]? = some b) :
    m'.sealed b.span.start = false ∧ m'.sealed b.span.stop = false := by
  have mem : b.span ∈ s.blocks.map Block.span := List.mem_map_of_mem (List.mem_of_getElem? hb)
  obtain ⟨start, stop⟩ := h.apart.edges mem (h.blocks k b hb).fits.le
  exact ⟨h.clean.sealed _ start, h.clean.sealed _ stop⟩

/-- Each edit of a block is judged by the block's own snippet. -/
theorem refusal_apply (h : InStep t m' s) (hb : s.blocks[k]? = some b) (e : Edit) :
    (b.apply s.source? e).refusal? = (e.apply b.snippet).refusal? := by
  obtain ⟨source, held, free, follows⟩ := h.source
  obtain ⟨start, stop⟩ := h.unsealed hb
  have step := h.blocks k b hb
  rw [held]
  exact Block.refusal_apply step.own free fun ok => (step.taken follows start stop ok).1

/-- An edit of one block, refused or not, leaves all of them in step. -/
theorem edit (h : InStep t m' s) (k : Nat) (e : Edit) :
    ∃ m'' : Layout, InStep t m'' (s.editSingle (k, e)) := by
  cases hb : s.blocks[k]? with
  | none =>
    have none : s.editSingle (k, e) = s := by simp [editSingle, block?, hb]
    rw [none]
    exact ⟨m', h⟩
  | some b =>
    obtain ⟨source, held, free, follows⟩ := h.source
    obtain ⟨start, stop⟩ := h.unsealed hb
    have step := h.blocks k b hb
    rcases Block.apply_cases step.own fun ok => (step.taken follows start stop ok).1 with
      ⟨done, -, ok⟩ | ⟨err, refused⟩
    · rw [editSingle_of_done hb held step.own done]
      have mem : b.span ∈ s.blocks.map Block.span := List.mem_map_of_mem (List.mem_of_getElem? hb)
      have out := m'.effect_outside (Text.byteSize t) step.fits.le (step.fits_of_accepted ok)
      have spans := map_span_set hb { b with snippet := (e.apply b.snippet).left } rfl
      refine ⟨_, ⟨_, source?_withSource held _, free, (step.taken follows start stop ok).2⟩, ?_, ?_, ?_⟩
      · rw [spans]
        exact h.clean.frame mem out
      · rw [spans]
        exact h.apart
      · intro j c hc
        by_cases eq : k = j
        · subst eq
          rw [List.getElem?_set_self (List.getElem?_eq_some_iff.1 hb).1, Option.some.injEq] at hc
          exact hc ▸ step.edited _ ok
        · rw [List.getElem?_set_ne eq] at hc
          have apart := Span.of_ne h.apart Or.symm (r := b.span) (s := c.span)
            (by simp [hb]) (by simp [hc]) eq
          exact (h.blocks j c hc).frame out apart
    · rw [editSingle_of_refused hb held step.own refused]
      exact ⟨m', h⟩

/-- However the edits are interleaved, the blocks stay in step with the document. -/
theorem editAll (h : InStep t m' s) (steps : List (Nat × Edit)) :
    ∃ m'' : Layout, InStep t m'' (s.editAll steps) := by
  induction steps generalizing s m' with
  | nil => exact ⟨m', h⟩
  | cons step steps ih =>
    obtain ⟨next, instep⟩ := h.edit step.1 step.2
    exact ih instep

end InStep

end Session

open Session in
/-- **Rejection is local.** Any number of blocks over parts of an unedited text that do not overlap
are edited in turn, in every way there is. Then, after any such edits, an edit of any of them is
refused if and only if the block's own snippet refuses it, with the same error: the document, as
long as it is there and nobody else uses it, takes whatever the snippet takes. -/
theorem refusal_eq_snippet_refusal (t : Text) (filename : Option String) (owner : Owner)
    (source : Source) (held : owner.source? = some source)
    (buffer : source.buffer = { Buffer.ofText t with filename := filename })
    (free : source.access = .free) (parts : List (Descriptor × Option Span × Handler))
    (s : Session) (created : Session.createAll { owner } parts = .ok s)
    (apart : Span.Apart (s.blocks.map Block.span)) (steps : List (Nat × Edit)) (k : Nat) (b : Block)
    (hb : (s.editAll steps).blocks[k]? = some b) (e : Edit) :
    (b.apply (s.editAll steps).source? e).refusal? = (e.apply b.snippet).refusal? := by
  have unedited : source.read = .ok { Buffer.ofText t with filename := filename } := by
    simp [Source.read, free, buffer]
  obtain ⟨held', fresh⟩ := createAll_fresh (s := { owner }) held unedited (by simp) created
  have start : InStep t (.ofText t) s :=
    ⟨⟨source, held', free, buffer ▸ Buffer.follows_ofText t filename⟩, Layout.clean_ofText t _, apart,
      fun k b hb => .created (fresh b (List.mem_of_getElem? hb))⟩
  obtain ⟨m', instep⟩ := start.editAll steps
  exact instep.refusal_apply hb e

/-- Two words and the place between them are edited in turn. A cut through the first word, which has
been replaced, is refused; the same cut in the second one is not. -/
theorem touching_words_refusal :
    let source : Source := { buffer := .ofText "abcd".toList }
    let steps : List (Nat × Edit) := [(1, .append ['|']), (0, .overwrite 0 2 ['X', 'Y'] {}),
      (2, .prepend ['(']), (2, .remove 0 2), (0, .append [')']), (1, .remove 0 1)]
    ∃ s, Session.createAll { owner := .source source }
        [({}, some ⟨0, 2⟩, {}), ({}, some ⟨2, 2⟩, {}), ({}, some ⟨2, 4⟩, {})] = .ok s ∧
      (∃ b, (s.editAll steps).blocks[0]? = some b ∧
        (b.apply (s.editAll steps).source? (.appendLeft 1 ['z'])).refusal? =
          some (.splitEditedChunk 1 1 "ab".toList)) ∧
      ∃ b, (s.editAll steps).blocks[2]? = some b ∧
        (b.apply (s.editAll steps).source? (.appendLeft 1 ['z'])).refusal? = none := by
  intro source steps
  let blocks : List Block :=
    [{ descriptor := {}, span := ⟨0, 2⟩, snippet := .ofText "ab".toList },
      { descriptor := {}, span := ⟨2, 2⟩, snippet := .ofText [] },
      { descriptor := {}, span := ⟨2, 4⟩, snippet := .ofText "cd".toList }]
  have created : Session.createAll { owner := .source source }
      [({}, some ⟨0, 2⟩, {}), ({}, some ⟨2, 2⟩, {}), ({}, some ⟨2, 4⟩, {})] =
        .ok { owner := .source source, blocks } := rfl
  have apart : Span.Apart (blocks.map Block.span) := by decide
  let last := Session.editAll { owner := .source source, blocks } steps
  let verdict (b : Block) : Option Error := ((Edit.appendLeft 1 ['z']).apply b.snippet).refusal?
  have first : last.blocks[0]?.map verdict = some (some (.splitEditedChunk 1 1 "ab".toList)) := by
    decide +kernel
  have third : last.blocks[2]?.map verdict = some none := by decide +kernel
  obtain ⟨b, hb, refused⟩ := Option.map_eq_some_iff.1 first
  obtain ⟨c, hc, taken⟩ := Option.map_eq_some_iff.1 third
  have law := refusal_eq_snippet_refusal _ none (.source source) source rfl rfl rfl _ _ created apart
    steps
  exact ⟨_, created, ⟨b, hb, (law 0 b hb _).trans refused⟩, c, hc, (law 2 c hc _).trans taken⟩

end ComponentEdit
