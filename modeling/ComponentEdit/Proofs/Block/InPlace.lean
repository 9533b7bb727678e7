import ComponentEdit.Proofs.Block.Hosting
import ComponentEdit.Proofs.Buffer.Seam

/-!
# A block in place

Edits of a block over a text without other edits leave the document with the block in
place of its span exactly when both show the same seam where the block starts
(`document_in_place_iff`). They may not: what is put in front of a whole block goes to the
left of its first offset in the block, and to the right of it in the document. A block
without characters also renders what is attached in another order than the document.
-/

namespace ComponentEdit
set_option autoImplicit false

namespace Block.Anchored

/-- Carry out an edit of the block. -/
def edit (a : Anchored) (e : Edit) : Attempt Anchored := a.block.apply a.source e

/-- The block and its source after edits of the block, accepted or refused. -/
def run (a : Anchored) (edits : List Edit) : Anchored := edits.foldl (fun a e => (a.edit e).left) a

/-- The edits of a run that are accepted. -/
def taken (a : Anchored) : List Edit → List Edit
  | [] => []
  | e :: edits =>
    if (a.edit e).accepted then e :: (a.edit e).left.taken edits else (a.edit e).left.taken edits

/-- The document is `t` with the block in place of a span. -/
def InPlace (t : Text) (span : Span) (a : Anchored) : Prop :=
  a.source.map Source.text =
    some (.ok (Text.takeBytes t span.start ++ a.block.render ++ Text.dropBytes t span.stop))

end Block.Anchored

open Block

/-- A block over a span of `t` and its source, with the seam that the document shows at the
start of the block and the one that the block shows. -/
inductive Seamed (t : Text) (span : Span) : Anchored → Seam → Seam → Prop
  /-- A block with characters. -/
  | solid {b : Block} {source : Source} {m' m : Layout} (hosted : b.Hosted t m' m)
      (hspan : b.span = span) (laid : source.buffer.LaidOut m') (base : source.buffer.base = t)
      (clean : m'.Clean t [span]) (readable : source.access ≠ .writing) :
      Seamed t span ⟨b, some source⟩ (m'.seam span.start) (m.seam 0)
  /-- A block without characters in a document that has some. -/
  | hollow {b : Block} {source : Source} {m' : Layout} {s : Seam} (own : b.replacements = [])
      (hspan : b.span = span) (empty : span.start = span.stop)
      (snippet : b.snippet = s.buffer none) (laid : source.buffer.LaidOut m')
      (base : source.buffer.base = t) (clean : m'.Clean t [span])
      (readable : source.access ≠ .writing) :
      Seamed t span ⟨b, some source⟩ (m'.seam span.start) s
  /-- A block of a document without characters. -/
  | void {b : Block} {source : Source} {s' s : Seam} {filename : Option String} (nil : t = [])
      (own : b.replacements = []) (hspan : b.span = span) (snippet : b.snippet = s.buffer none)
      (buffer : source.buffer = s'.buffer filename) (readable : source.access ≠ .writing) :
      Seamed t span ⟨b, some source⟩ s' s

namespace Seamed
variable {t : Text} {span : Span} {a : Anchored} {s' s : Seam}

/-- A block that was just made over a text without edits. -/
theorem created {source : Source} {filename : Option String} {b : Block} {d : Descriptor}
    (fits : span.Fits t) (buffer : source.buffer = { Buffer.ofText t with filename := filename })
    (readable : source.access ≠ .writing)
    (hb : b = { descriptor := d, span := span,
                snippet := .ofText (Text.slice t span.start span.stop) }) :
    Seamed t span ⟨b, some source⟩ {} {} := by
  by_cases nil : t = []
  · subst nil hb
    have hollow : Buffer.ofText (Text.slice [] span.start span.stop) = ({} : Seam).buffer none := rfl
    exact .void rfl rfl rfl hollow buffer readable
  · have laid := (Buffer.laidOut_ofText nil).renamed filename
    rw [← buffer] at laid
    have base : source.buffer.base = t := by rw [buffer]; rfl
    by_cases empty : span.start = span.stop
    · have hollow : b.snippet = ({} : Seam).buffer none := by
        rw [hb, empty, Text.slice_self]
        rfl
      exact .hollow (by rw [hb]) (by rw [hb]) empty hollow laid base (Layout.clean_ofText t _) readable
    · have forward : span.start < span.stop := Nat.lt_of_le_of_ne fits.le empty
      subst hb
      exact .solid (.created d {} fits forward) rfl laid base (Layout.clean_ofText t _) readable

/-- Whatever fits a span without characters is accepted there. -/
theorem accepts_of_empty {m' : Layout} {e : Edit} (empty : span.start = span.stop)
    (admits : m'.admits t span.start = true) (fits : e.Fits 0) :
    m'.accepts t (e.within span) = true := by
  cases e with
  | append content =>
    rw [empty] at admits
    exact admits
  | prepend content => exact admits
  | appendLeft i content | prependLeft i content | appendRight i content | prependRight i content =>
    obtain rfl : i = 0 := Nat.le_zero.1 fits
    exact admits
  | overwrite start stop content options =>
    obtain ⟨lt, le⟩ := fits
    omega
  | remove start stop =>
    obtain ⟨le, hi⟩ := fits
    obtain rfl : stop = 0 := Nat.le_zero.1 hi
    obtain rfl : start = 0 := Nat.le_zero.1 le
    have boundary := (Layout.admits_iff.1 admits).1
    exact Layout.accepts_remove_iff.2 ⟨⟨Nat.le_refl _, boundary, boundary⟩, .inl rfl⟩

theorem fits_within_hollow {e : Edit} (fits : e.Fits 0) : (e.within ⟨0, 0⟩).Fits 0 := by
  cases e with
  | append content | prepend content => exact Nat.le_refl 0
  | _ => simpa [Edit.within] using fits

/-- An edit of a block without characters, if the source accepts what fits there. -/
theorem apply_hollow {b : Block} {source : Source} {e : Edit} (own : b.replacements = [])
    (snippet : b.snippet = s.buffer none)
    (agree : e.Fits 0 → ((e.within b.span).apply source.buffer).accepted = true) :
    (b.apply (some source) e = .done (b.edited source e) ∧ e.Fits 0 ∧
        (e.apply b.snippet).left = (s.step true e).buffer none) ∨
      ∃ err, b.apply (some source) e = .refused ⟨b, some source⟩ err := by
  obtain ⟨accepted, left⟩ := hollow_apply s none e
  rw [← snippet] at accepted left
  rcases apply_cases own fun ok => agree (accepted.1 ok) with ⟨done, -, ok⟩ | refused
  · exact .inl ⟨done, accepted.1 ok, left (accepted.1 ok)⟩
  · exact .inr refused

/-- An edit of the block is refused without a change, or is a step of both seams. -/
theorem edit (fits : span.Fits t) (h : Seamed t span a s' s) (e : Edit) :
    (∃ err, a.edit e = .refused a err) ∨
      ∃ next, a.edit e = .done next ∧
        Seamed t span next (s'.step t.isEmpty (e.within ⟨0, span.length⟩))
          (s.step (span.length == 0) e) := by
  cases h with
  | solid hosted hspan laid base clean readable =>
    rename_i b source m' m
    subst hspan
    have start := clean.sealed b.span.start (by simp)
    have stop := clean.sealed b.span.stop (by simp)
    rcases hosted.apply laid base start stop e with ⟨done, fits', next, hosted'⟩ | refused
    · have filled : t.isEmpty = false := List.isEmpty_eq_false_iff.2 (base ▸ laid.base_ne)
      have hollow : (b.span.length == 0) = false := beq_eq_false_iff_ne.2 hosted.length_ne_zero
      have out := m'.effect_outside (Text.byteSize t) fits.le fits'
      refine .inr ⟨_, done, ?_⟩
      rw [filled, hollow, ← m'.seam_effect_within b.span (Text.byteSize t) fits.le fits',
        ← m.seam_effect hosted.length_ne_zero fits']
      exact .solid hosted' rfl next ((Buffer.apply_base _ _).trans base)
        (clean.frame (List.mem_singleton.2 rfl) out) readable
    · exact .inl refused
  | hollow own hspan empty snippet laid base clean readable =>
    rename_i b source m'
    subst hspan
    obtain ⟨accepts, next⟩ := laid.apply (e.within b.span)
    have admits : m'.admits t b.span.start = true :=
      Layout.admits_iff.2 ⟨fits.start, clean.sealed _ (by simp)⟩
    have size : b.span.length = 0 := by unfold Span.length; omega
    have filled : t.isEmpty = false := List.isEmpty_eq_false_iff.2 (base ▸ laid.base_ne)
    rw [base] at accepts next
    rcases apply_hollow own snippet fun fits' => accepts.trans (accepts_of_empty empty admits fits')
      with ⟨done, fits', left⟩ | refused
    · have fitsPart : e.Fits b.span.length := by rw [size]; exact fits'
      have out := m'.effect_outside (Text.byteSize t) fits.le fitsPart
      rw [Layout.apply_of_accepts (accepts_of_empty empty admits fits')] at next
      refine .inr ⟨_, done, ?_⟩
      rw [filled, ← m'.seam_effect_within b.span (Text.byteSize t) fits.le fitsPart, size]
      exact .hollow own rfl empty left next ((Buffer.apply_base _ _).trans base)
        (clean.frame (List.mem_singleton.2 rfl) out) readable
    · exact .inl refused
  | void nil own hspan snippet buffer readable =>
    rename_i b source filename
    subst hspan nil
    have stop : b.span.stop = 0 := Nat.le_zero.1 (Text.le_byteSize_of_isBoundary fits.stop)
    have start : b.span.start = 0 := Nat.le_zero.1 (Text.le_byteSize_of_isBoundary fits.start)
    have size : b.span.length = 0 := by unfold Span.length; omega
    have whole : b.span = ⟨0, 0⟩ := by
      cases hb : b.span with
      | mk lo hi => simp_all
    obtain ⟨accepted, left'⟩ := hollow_apply s' filename (e.within b.span)
    rw [← buffer, whole] at accepted
    rw [← buffer, whole] at left'
    rcases apply_hollow own snippet fun fits' => by
        rw [whole]; exact accepted.2 (fits_within_hollow fits') with ⟨done, fits', left⟩ | refused
    · have next : ((e.within b.span).apply source.buffer).left =
          (s'.step true (e.within ⟨0, 0⟩)).buffer filename := by
        rw [whole]
        exact left' (fits_within_hollow fits')
      refine .inr ⟨_, done, ?_⟩
      rw [size]
      exact .void rfl own rfl left next readable
    · exact .inl refused

/-- The seams through a run are told by the edits that are accepted. -/
theorem run (fits : span.Fits t) (h : Seamed t span a s' s) (edits : List Edit) :
    Seamed t span (a.run edits)
      (s'.run t.isEmpty ((a.taken edits).map (Edit.within ⟨0, span.length⟩)))
      (s.run (span.length == 0) (a.taken edits)) := by
  induction edits generalizing a s' s with
  | nil => exact h
  | cons e edits ih =>
    simp only [Anchored.run, List.foldl_cons, Anchored.taken]
    rcases h.edit fits e with ⟨err, refused⟩ | ⟨next, done, seamed⟩
    · rw [refused]
      exact ih h
    · rw [done]
      exact ih seamed

/-- The text of a document that is clean outside of a span. -/
theorem text_of_clean {source : Source} {m' : Layout} (fits : span.Fits t)
    (laid : source.buffer.LaidOut m') (base : source.buffer.base = t) (clean : m'.Clean t [span])
    (readable : source.access ≠ .writing) :
    source.text = .ok (Text.takeBytes t span.start ++
      m'.renderFrom span.start (Text.slice t span.start span.stop) ++
        Text.dropBytes t span.stop) := by
  have woven := Slots.render_weave clean.toClean (by simpa using fits) (List.pairwise_singleton _ _)
  have render := laid.render_eq
  rw [base, woven] at render
  simp [Source.text, Source.read, readable, Except.map, render, Slots.parts, Text.weave,
    Text.slice_zero]

/-- The document has the block in place if both show the same seam. -/
theorem inPlace_iff (fits : span.Fits t) (h : Seamed t span a s' s) :
    a.InPlace t span ↔ s'.text t.isEmpty = s.text (span.length == 0) := by
  unfold Anchored.InPlace
  cases h with
  | solid hosted hspan laid base clean readable =>
    rename_i b source m' m
    subst hspan
    have filled : t.isEmpty = false := List.isEmpty_eq_false_iff.2 (base ▸ laid.base_ne)
    rw [beq_eq_false_iff_ne.2 hosted.length_ne_zero, filled, Option.map_some,
      text_of_clean fits laid base clean readable, hosted.renderFrom_eq, hosted.render_eq]
    simp only [Option.some.injEq, Except.ok.injEq, List.append_cancel_right_eq,
      List.append_cancel_left_eq]
    rfl
  | hollow own hspan empty snippet laid base clean readable =>
    rename_i b source m'
    subst hspan
    have size : b.span.length = 0 := by unfold Span.length; omega
    have filled : t.isEmpty = false := List.isEmpty_eq_false_iff.2 (base ▸ laid.base_ne)
    have render : b.render = s.text true := by rw [Block.render, snippet, Seam.render_buffer]
    rw [size, filled, Option.map_some, text_of_clean fits laid base clean readable]
    simp only [render, empty, Text.slice_self, Slots.renderFrom, Option.some.injEq, Except.ok.injEq,
      List.append_cancel_right_eq, List.append_cancel_left_eq]
    rfl
  | void nil own hspan snippet buffer readable =>
    rename_i b source filename
    subst hspan nil
    have size : b.span.length = 0 := by
      have := Text.le_byteSize_of_isBoundary fits.stop
      unfold Span.length
      simp only [Text.byteSize_nil] at this
      omega
    have render : b.render = s.text true := by rw [Block.render, snippet, Seam.render_buffer]
    have text : source.text = .ok (s'.text true) := by
      simp [Source.text, Source.read, readable, Except.map, buffer, Seam.render_buffer]
    rw [size, Option.map_some, text, render]
    simp [Text.takeBytes, Text.dropBytes]

end Seamed

/-- **The document has the block in place exactly if the seams agree.** A block over a text
without edits is edited, and nothing else is. The document then is the text with the block in
place of its span if and only if the accepted edits leave the same seam in the document, where
they are addressed to the block's offsets, as in the block itself. A block with characters that
nothing is put in front of as a whole is always in place. -/
theorem document_in_place_iff (t : Text) (filename : Option String) (source : Source)
    (buffer : source.buffer = { Buffer.ofText t with filename := filename }) (d : Descriptor)
    (range : Option Span) (b : Block) (created : Block.create source d range = .ok b)
    (edits : List Edit) :
    let span := Block.resolve t d range
    let a := Anchored.run ⟨b, some source⟩ edits
    let taken := Anchored.taken ⟨b, some source⟩ edits
    (a.InPlace t span ↔
        (Seam.run t.isEmpty {} (taken.map (Edit.within ⟨0, span.length⟩))).text t.isEmpty =
          (Seam.run (span.length == 0) {} taken).text (span.length == 0)) ∧
      (span.start < span.stop → (∀ e ∈ taken, e.operation ≠ .prepend) → a.InPlace t span) := by
  intro span a taken
  have readable : source.access ≠ .writing := fun writing => by
    simp [Block.create, Source.read, writing, bind, Except.bind] at created
  have unedited : source.read = .ok { Buffer.ofText t with filename := filename } := by
    simp [Source.read, readable, buffer]
  obtain ⟨fits, hb⟩ := (Block.create_unedited_iff unedited).1 created
  have seamed := (Seamed.created fits buffer readable hb).run fits edits
  refine ⟨seamed.inPlace_iff fits, fun lt other => (seamed.inPlace_iff fits).2 ?_⟩
  have size : span.length ≠ 0 := by unfold Span.length; omega
  have filled : t.isEmpty = false := by
    have inside : span.stop ≤ Text.byteSize t := Text.le_byteSize_of_isBoundary fits.stop
    refine List.isEmpty_eq_false_iff.2 fun nil => ?_
    rw [nil, Text.byteSize_nil] at inside
    omega
  rw [filled, beq_eq_false_iff_ne.2 size, Seam.run_within size other]

/-- Text in front of a whole block, after text to the left of its first offset: in the block it
comes before that text, in the document behind it. -/
theorem prepend_not_in_place :
    let source : Source := { buffer := .ofText "Hello, World!".toList }
    ∃ b, Block.create source {} (some ⟨7, 12⟩) = .ok b ∧
      let a := Anchored.run ⟨b, some source⟩ [.appendLeft 0 ['A'], .prepend ['B']]
      a.block.render = "BAWorld".toList ∧
        a.source.map Source.text = some (.ok "Hello, ABWorld!".toList) ∧
        ¬a.InPlace "Hello, World!".toList ⟨7, 12⟩ := by
  have created : Block.create { buffer := .ofText "Hello, World!".toList } {} (some ⟨7, 12⟩) =
      .ok { descriptor := {}, span := ⟨7, 12⟩, snippet := .ofText "World".toList } := rfl
  refine ⟨_, created, by decide +kernel, rfl, fun inPlace => ?_⟩
  have law := document_in_place_iff _ none _ rfl _ _ _ created
    [.appendLeft 0 ['A'], .prepend ['B']]
  exact absurd (law.1.1 inPlace) (by decide +kernel)

end ComponentEdit
