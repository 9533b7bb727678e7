import ComponentEdit.Proofs.Block.Hosting
import ComponentEdit.Proofs.Buffer.Seam
import ComponentEdit.Session.Basic
import Mathlib.Data.List.Sort

/-!
# Several blocks of a document

Blocks with something between them (`Span.Separate`) do not interfere. Through any sequence of
edits of one or the other, each of them is shown by the document as it shows itself, and the
document is clean outside of them (`Joined.edit`). So it is the text with every block in place of
its span (`blocks_in_place`), in whatever order they were made, as long as nothing is put in front
of a whole block.
-/

namespace ComponentEdit
set_option autoImplicit false

namespace Span

/-- Spans of which no two overlap: of any two, one stops before the other starts or where it
starts. -/
def Apart (spans : List Span) : Prop :=
  spans.Pairwise fun r s => r.stop ≤ s.start ∨ s.stop ≤ r.start

/-- Spans with something between any two of them, in whatever order they are given. -/
def Separate (spans : List Span) : Prop :=
  spans.Pairwise fun r s => r.stop < s.start ∨ s.stop < r.start

instance (spans : List Span) : Decidable (Apart spans) :=
  inferInstanceAs (Decidable (spans.Pairwise fun r s => r.stop ≤ s.start ∨ s.stop ≤ r.start))

instance (spans : List Span) : Decidable (Separate spans) :=
  inferInstanceAs (Decidable (spans.Pairwise fun r s => r.stop < s.start ∨ s.stop < r.start))

variable {spans : List Span} {r s : Span}

/-- What holds of any two of a row, whichever comes first, holds of those in different places. -/
theorem of_ne {R : Span → Span → Prop} (row : spans.Pairwise R) (symm : ∀ {r s}, R r s → R s r)
    {i j : Nat} (hi : spans[i]? = some r) (hj : spans[j]? = some s) (ne : i ≠ j) : R r s := by
  obtain ⟨li, rfl⟩ := List.getElem?_eq_some_iff.1 hi
  obtain ⟨lj, rfl⟩ := List.getElem?_eq_some_iff.1 hj
  rcases Nat.lt_or_gt_of_ne ne with lt | lt
  · exact List.pairwise_iff_getElem.1 row i j li lj lt
  · exact symm (List.pairwise_iff_getElem.1 row j i lj li lt)

/-- The edges of a span lie inside none of them, its own inside included. -/
theorem Apart.edges (apart : Apart spans) (hs : s ∈ spans) (le : s.start ≤ s.stop) :
    (∀ r ∈ spans, s.start ≤ r.start ∨ r.stop ≤ s.start) ∧
      ∀ r ∈ spans, s.stop ≤ r.start ∨ r.stop ≤ s.stop := by
  obtain ⟨i, hi⟩ := List.getElem?_of_mem hs
  have cases : ∀ r ∈ spans, r = s ∨ r.stop ≤ s.start ∨ s.stop ≤ r.start := by
    intro r hr
    obtain ⟨j, hj⟩ := List.getElem?_of_mem hr
    by_cases eq : j = i
    · subst eq
      rw [hj, Option.some.injEq] at hi
      exact .inl hi
    · exact .inr (of_ne apart Or.symm hj hi eq)
  constructor
  · intro r hr
    rcases cases r hr with rfl | before | behind
    · exact .inl (Nat.le_refl _)
    · exact .inr before
    · exact .inl (Nat.le_trans le behind)
  · intro r hr
    rcases cases r hr with rfl | before | behind
    · exact .inr (Nat.le_refl _)
    · exact .inr (Nat.le_trans before le)
    · exact .inl behind

theorem Separate.apart (separate : Separate spans) : Apart spans :=
  List.Pairwise.imp (Or.imp Nat.le_of_lt Nat.le_of_lt) separate

end Span

namespace Block

/-- A block with characters that its document shows as the block itself does. -/
def Shown (t : Text) (m' : Layout) (b : Block) : Prop :=
  ∃ m : Layout, b.Hosted t m' m ∧ m'.seam b.span.start = m.seam 0

namespace Shown
variable {t : Text} {m' m'' : Layout} {b : Block} {part : Span}

theorem fits (h : b.Shown t m') : b.span.Fits t := by
  obtain ⟨m, hosted, -⟩ := h
  exact hosted.fits

theorem own (h : b.Shown t m') : b.replacements = [] := by
  obtain ⟨m, hosted, -⟩ := h
  exact hosted.own

/-- An edit elsewhere in the document does not show in the block. -/
theorem frame (h : b.Shown t m') (out : m'.Outside part m'')
    (apart : part.stop < b.span.start ∨ b.span.stop < part.start) : b.Shown t m'' := by
  obtain ⟨m, hosted, seam⟩ := h
  have := hosted.fits.le
  exact ⟨m, hosted.frame out apart, (out.seam (by omega)).trans seam⟩

/-- An edit of the block is taken by it and the document, or changes nothing. -/
theorem apply (h : b.Shown t m') {source : Source} (laid : source.buffer.LaidOut m')
    (base : source.buffer.base = t) (start : m'.sealed b.span.start = false)
    (stop : m'.sealed b.span.stop = false) {e : Edit} (other : e.operation ≠ .prepend) :
    (b.apply (some source) e = .done (b.edited source e) ∧ e.Fits b.span.length ∧
        ((e.within b.span).apply source.buffer).left.LaidOut
          (m'.effect (Text.byteSize t) (e.within b.span)) ∧
        Shown t (m'.effect (Text.byteSize t) (e.within b.span))
          { b with snippet := (e.apply b.snippet).left }) ∨
      ∃ err, b.apply (some source) e = .refused ⟨b, some source⟩ err := by
  obtain ⟨m, hosted, seam⟩ := h
  rcases hosted.apply laid base start stop e with ⟨done, fits, next, hosted'⟩ | refused
  · refine .inl ⟨done, fits, next, _, hosted', ?_⟩
    have solid := hosted.length_ne_zero
    rw [m'.seam_effect_within b.span _ hosted.fits.le fits, m.seam_effect solid fits, seam,
      Seam.step_within solid other]
  · exact .inr refused

theorem renderFrom_eq (h : b.Shown t m') :
    m'.renderFrom b.span.start (Text.slice t b.span.start b.span.stop) = b.render := by
  obtain ⟨m, hosted, seam⟩ := h
  simp only [Layout.seam, Seam.mk.injEq] at seam
  rw [hosted.renderFrom_eq, hosted.render_eq, seam.2.1, seam.2.2.1]

end Shown

end Block

namespace Session

/-- Make blocks one by one, each over a part of the text and with a handler. -/
def createAll (s : Session) (parts : List (Descriptor × Option Span × Handler)) :
    Except Error Session :=
  parts.foldlM (fun s (d, span, handler) => s.create d span handler) s

/-- The blocks made one by one, in the order in which the document has them. -/
def inOrder (s : Session) : List Block :=
  s.blocks.insertionSort fun b c => b.span.start ≤ c.span.start

/-- Edit the block made in the given place, if there is one. -/
def editSingle (s : Session) (step : Nat × Edit) : Session :=
  match s.block? (.single step.1) with
  | some b => (s.edit (.single step.1) b step.2).left
  | none => s

/-- Edit blocks one after the other, as often and in whatever order. -/
def editAll (s : Session) (steps : List (Nat × Edit)) : Session := steps.foldl editSingle s

section Source
variable {s : Session} {source : Source} {k : Nat} {b : Block} {e : Edit}

/-- A refused edit of a block changes nothing. -/
theorem editSingle_of_refused (hb : s.blocks[k]? = some b) (held : s.source? = some source)
    (own : b.replacements = []) {err : Error}
    (refused : b.apply (some source) e = .refused ⟨b, some source⟩ err) :
    s.editSingle (k, e) = s := by
  obtain ⟨lt, rfl⟩ := List.getElem?_eq_some_iff.1 hb
  have plain : s.blocks[k].isReplaced e.operation = false := by
    simp [Block.isReplaced, Block.replacement?, own]
  simp [editSingle, block?, hb, edit, held, refused, Attempt.refused, Attempt.map, plain,
    withSource_self held, putBlock]

/-- An accepted edit puts the block and the source into their new state. -/
theorem editSingle_of_done (hb : s.blocks[k]? = some b) (held : s.source? = some source)
    (own : b.replacements = []) {next : Block} {next' : Source}
    (done : b.apply (some source) e = .done ⟨next, some next'⟩) :
    s.editSingle (k, e) = { s.withSource next' with blocks := s.blocks.set k next } := by
  have plain : b.isReplaced e.operation = false := by
    simp [Block.isReplaced, Block.replacement?, own]
  simp [editSingle, block?, hb, edit, held, done, Attempt.done, Attempt.map, plain, putBlock,
    withSource]

end Source

/-- Another state of a block is over the same span. -/
theorem map_span_set {blocks : List Block} {k : Nat} {b : Block} (hb : blocks[k]? = some b)
    (next : Block) (same : next.span = b.span) :
    (blocks.set k next).map Block.span = blocks.map Block.span := by
  obtain ⟨lt, rfl⟩ := List.getElem?_eq_some_iff.1 hb
  have lt' : k < (blocks.map Block.span).length := by simpa using lt
  simpa [List.map_set, same] using List.set_getElem_self lt'

theorem inOrder_perm (s : Session) : s.inOrder.Perm s.blocks := List.perm_insertionSort _ _

/-- Blocks with something between any two of them are spaced in the order of the document. -/
theorem spaced_inOrder {s : Session} (separate : Span.Separate (s.blocks.map Block.span))
    (forward : ∀ b ∈ s.inOrder, b.span.start ≤ b.span.stop) :
    Span.Spaced (s.inOrder.map Block.span) := by
  have total : Std.Total fun b c : Block => b.span.start ≤ c.span.start :=
    ⟨fun b c => Nat.le_total _ _⟩
  have trans : IsTrans Block fun b c => b.span.start ≤ c.span.start :=
    ⟨fun b c d => Nat.le_trans⟩
  have sorted : s.inOrder.Pairwise fun b c => b.span.start ≤ c.span.start :=
    List.pairwise_insertionSort _ _
  have separate : s.inOrder.Pairwise fun b c =>
      b.span.stop < c.span.start ∨ c.span.stop < b.span.start :=
    (s.inOrder_perm.pairwise_iff Or.symm).2 (List.pairwise_map.1 separate)
  refine List.pairwise_map.2 ((sorted.and separate).imp_of_mem fun {b c} _ hc h => ?_)
  have le := forward c hc
  omega

/-- The blocks of a session, made one by one over separate parts of `t` with characters, and the
layout of the document that hosts them. -/
structure Joined (t : Text) (m' : Layout) (s : Session) : Prop where
  source : ∃ source, s.source? = some source ∧ source.access ≠ .writing ∧
    source.buffer.LaidOut m' ∧ source.buffer.base = t
  clean : m'.Clean t (s.blocks.map Block.span)
  separate : Span.Separate (s.blocks.map Block.span)
  shown : ∀ (k : Nat) (b : Block), s.blocks[k]? = some b → b.Shown t m'

namespace Joined
variable {t : Text} {m' : Layout} {s : Session}

/-- An edit of one block leaves all of them joined with the document. -/
theorem edit (h : Joined t m' s) (k : Nat) {e : Edit} (other : e.operation ≠ .prepend) :
    ∃ m'' : Layout, Joined t m'' (s.editSingle (k, e)) ∧
      (s.editSingle (k, e)).blocks.map Block.span = s.blocks.map Block.span := by
  cases hb : s.blocks[k]? with
  | none =>
    have none : s.editSingle (k, e) = s := by simp [editSingle, block?, hb]
    rw [none]
    exact ⟨m', h, rfl⟩
  | some b =>
    obtain ⟨source, held, readable, laid, base⟩ := h.source
    have shown := h.shown k b hb
    have mem : b.span ∈ s.blocks.map Block.span := List.mem_map_of_mem (List.mem_of_getElem? hb)
    obtain ⟨start, stop⟩ := h.separate.apart.edges mem shown.fits.le
    rcases shown.apply laid base (h.clean.sealed _ start) (h.clean.sealed _ stop) other with
      ⟨done, fits, next, shown'⟩ | ⟨err, refused⟩
    · rw [editSingle_of_done hb held shown.own done]
      have out := m'.effect_outside (Text.byteSize t) shown.fits.le fits
      have spans := map_span_set hb { b with snippet := (e.apply b.snippet).left } rfl
      refine ⟨_, ⟨⟨_, source?_withSource held _, readable, next, ?_⟩, ?_, ?_, ?_⟩, spans⟩
      · exact (Buffer.apply_base _ _).trans base
      · rw [spans]
        exact h.clean.frame mem out
      · rw [spans]
        exact h.separate
      · intro j c hc
        by_cases eq : k = j
        · subst eq
          rw [List.getElem?_set_self (List.getElem?_eq_some_iff.1 hb).1, Option.some.injEq] at hc
          exact hc ▸ shown'
        · rw [List.getElem?_set_ne eq] at hc
          have apart := Span.of_ne h.separate Or.symm (r := b.span) (s := c.span)
            (by simp [hb]) (by simp [hc]) eq
          exact (h.shown j c hc).frame out apart
    · rw [editSingle_of_refused hb held shown.own refused]
      exact ⟨m', h, rfl⟩

/-- However the edits are interleaved, the blocks stay joined with the document. -/
theorem editAll (h : Joined t m' s) (steps : List (Nat × Edit))
    (other : ∀ step ∈ steps, step.2.operation ≠ .prepend) :
    ∃ m'' : Layout, Joined t m'' (s.editAll steps) ∧
      (s.editAll steps).blocks.map Block.span = s.blocks.map Block.span := by
  induction steps generalizing s m' with
  | nil => exact ⟨m', h, rfl⟩
  | cons step steps ih =>
    obtain ⟨next, joined, spans⟩ := h.edit step.1 (other step List.mem_cons_self)
    obtain ⟨last, joined', spans'⟩ := ih joined fun x hx => other x (List.mem_cons_of_mem _ hx)
    exact ⟨last, joined', spans'.trans spans⟩

/-- The document is the text with every block in place. -/
theorem text_eq (h : Joined t m' s) : Span.Spaced (s.inOrder.map Block.span) ∧
    ∃ source, s.source? = some source ∧
      source.text = .ok (t.weave 0 (s.inOrder.map fun b => (b.span, b.render))) := by
  obtain ⟨source, held, readable, laid, base⟩ := h.source
  have shown : ∀ b ∈ s.inOrder, b.Shown t m' := by
    intro b hb
    obtain ⟨k, hk⟩ := List.getElem?_of_mem (s.inOrder_perm.mem_iff.1 hb)
    exact h.shown k b hk
  have spaced := spaced_inOrder h.separate fun b hb => (shown b hb).fits.le
  have clean := h.clean.toClean.mono (s.inOrder_perm.map Block.span).symm.subset
  have fits : ∀ r ∈ s.inOrder.map Block.span, r.Fits t := by
    intro r hr
    obtain ⟨b, hb, rfl⟩ := List.mem_map.1 hr
    exact (shown b hb).fits
  have parts : m'.toSlots.parts t (s.inOrder.map Block.span) =
      s.inOrder.map fun b => (b.span, b.render) := by
    rw [Slots.parts, List.map_map]
    exact List.map_congr_left fun b hb => by rw [Function.comp, (shown b hb).renderFrom_eq]
  refine ⟨spaced, source, held, ?_⟩
  simp only [Source.text, Source.read, readable, if_false, Except.map, laid.render_eq, base]
  rw [Slots.render_weave clean fits spaced, parts]

end Joined

theorem editAll_of_no_blocks {s : Session} (none : s.blocks = []) (steps : List (Nat × Edit)) :
    s.editAll steps = s := by
  induction steps with
  | nil => rfl
  | cons step steps ih =>
    have same : s.editSingle step = s := by simp [editSingle, block?, none]
    rw [editAll, List.foldl_cons, same]
    exact ih

section Creation
variable {t : Text} {filename : Option String} {source : Source} {s s' : Session}

/-- A block as it is made over a part of a text without edits. -/
def Fresh (t : Text) (b : Block) : Prop :=
  b.span.Fits t ∧ ∃ d handler,
    b = { descriptor := d, span := b.span, handler := handler,
          snippet := .ofText (Text.slice t b.span.start b.span.stop) }

theorem createAll_fresh (held : s.source? = some source)
    (unedited : source.read = .ok { Buffer.ofText t with filename := filename })
    (fresh : ∀ b ∈ s.blocks, Fresh t b) {parts : List (Descriptor × Option Span × Handler)}
    (created : s.createAll parts = .ok s') :
    s'.source? = some source ∧ ∀ b ∈ s'.blocks, Fresh t b := by
  induction parts generalizing s with
  | nil =>
    cases created
    exact ⟨held, fresh⟩
  | cons part parts ih =>
    obtain ⟨d, range, handler⟩ := part
    simp only [createAll, List.foldlM_cons, create, held, Source.held, bind, Except.bind] at created
    cases hb : Block.create source d range with
    | error err => simp [hb] at created
    | ok b =>
      obtain ⟨fits, eq⟩ := (Block.create_unedited_iff unedited).1 hb
      simp only [hb] at created
      refine ih (s := { s with blocks := s.blocks ++ [{ b with handler }] }) held ?_ created
      intro c hc
      rcases List.mem_append.1 hc with hc | hc
      · exact fresh c hc
      · rw [List.mem_singleton.1 hc, eq]
        exact ⟨fits, d, handler, rfl⟩

/-- Blocks that were just made over separate parts with characters are joined with the document. -/
theorem joined_of_fresh (nonempty : t ≠ []) (held : s.source? = some source)
    (buffer : source.buffer = { Buffer.ofText t with filename := filename })
    (readable : source.access ≠ .writing) (fresh : ∀ b ∈ s.blocks, Fresh t b)
    (forward : ∀ b ∈ s.blocks, b.span.start < b.span.stop)
    (separate : Span.Separate (s.blocks.map Block.span)) : Joined t (.ofText t) s where
  source := ⟨source, held, readable,
    buffer ▸ (Buffer.laidOut_ofText nonempty).renamed filename, by rw [buffer]; rfl⟩
  clean := Layout.clean_ofText t _
  separate := separate
  shown k b hb := by
    have mem := List.mem_of_getElem? hb
    obtain ⟨fits, d, handler, eq⟩ := fresh b mem
    have hosted := Block.Hosted.created d handler fits (forward b mem)
    rw [← eq] at hosted
    exact ⟨_, hosted, rfl⟩

end Creation

end Session

open Session in
/-- **Separate blocks do not interfere.** Any number of blocks over parts of an unedited text that
have characters, with something between any two of them, are made in any order and edited one by
one, as often as one likes, but nothing is put in front of a whole block. In the order of the
document the blocks then are spaced as before, and the document is the text with each block, as it
shows itself, in place of its span. -/
theorem blocks_in_place (t : Text) (filename : Option String) (owner : Owner) (source : Source)
    (held : owner.source? = some source)
    (buffer : source.buffer = { Buffer.ofText t with filename := filename })
    (readable : source.access ≠ .writing) (parts : List (Descriptor × Option Span × Handler))
    (s : Session) (created : Session.createAll { owner } parts = .ok s)
    (forward : ∀ b ∈ s.blocks, b.span.start < b.span.stop)
    (separate : Span.Separate (s.blocks.map Block.span)) (steps : List (Nat × Edit))
    (other : ∀ step ∈ steps, step.2.operation ≠ .prepend) :
    (s.editAll steps).blocks.map Block.span = s.blocks.map Block.span ∧
      Span.Spaced ((s.editAll steps).inOrder.map Block.span) ∧
      ∃ source', (s.editAll steps).source? = some source' ∧
        source'.text =
          .ok (t.weave 0 ((s.editAll steps).inOrder.map fun b => (b.span, b.render))) := by
  have unedited : source.read = .ok { Buffer.ofText t with filename := filename } := by
    simp [Source.read, readable, buffer]
  obtain ⟨held', fresh⟩ := createAll_fresh (s := { owner }) held unedited (by simp) created
  by_cases nil : t = []
  · -- a text without characters has no part that is not empty
    have none : s.blocks = [] := by
      refine List.eq_nil_iff_forall_not_mem.2 fun b hb => ?_
      have lt := forward b hb
      have inside := Text.le_byteSize_of_isBoundary (fresh b hb).1.stop
      rw [nil, Text.byteSize_nil] at inside
      omega
    have order : s.inOrder = [] := by rw [inOrder, none]; rfl
    rw [editAll_of_no_blocks none, order]
    refine ⟨rfl, List.Pairwise.nil, source, held', ?_⟩
    subst nil
    simp only [Source.text, unedited, Except.map]
    rfl
  · obtain ⟨m', joined, spans⟩ :=
      (joined_of_fresh nil held' buffer readable fresh forward separate).editAll steps other
    exact ⟨spans, joined.text_eq⟩

/-- Two words are edited in turn, of which the second one was made into a block first; the cut
through it is refused. -/
theorem two_words_in_place :
    let source : Source := { buffer := .ofText "ab cd".toList }
    let steps : List (Nat × Edit) := [(1, .append ['!']),
      (0, .overwrite 0 2 ['X', 'Y'] { contentOnly := true }), (1, .appendLeft 1 ['-']),
      (0, .remove 0 1), (0, .appendLeft 0 ['('])]
    ∃ s, Session.createAll { owner := .source source }
        [({}, some ⟨3, 5⟩, {}), ({}, some ⟨0, 2⟩, {})] = .ok s ∧
      ∃ source', (s.editAll steps).source? = some source' ∧ source'.text = .ok "a-b! (XY".toList := by
  intro source steps
  let blocks : List Block :=
    [{ descriptor := {}, span := ⟨3, 5⟩, snippet := .ofText "cd".toList },
      { descriptor := {}, span := ⟨0, 2⟩, snippet := .ofText "ab".toList }]
  have created : Session.createAll { owner := .source source }
      [({}, some ⟨3, 5⟩, {}), ({}, some ⟨0, 2⟩, {})] = .ok { owner := .source source, blocks } := rfl
  have forward : ∀ b ∈ blocks, b.span.start < b.span.stop := by decide
  have separate : Span.Separate (blocks.map Block.span) := by decide
  obtain ⟨-, -, source', held, text⟩ := blocks_in_place _ none (.source source) source rfl rfl
    (by decide) _ _ created forward separate steps (by decide)
  exact ⟨_, created, source', held, text.trans (congrArg Except.ok (by decide +kernel))⟩

end ComponentEdit
