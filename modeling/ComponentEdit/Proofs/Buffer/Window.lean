import ComponentEdit.Proofs.Buffer.Layout
import ComponentEdit.Proofs.Buffer.Weave

/-!
# Windows

A part of a text that is edited on its own has a layout of its own. The layout of the
whole text mirrors it when both say the same behind the edge where the part starts, up to
the edge where it stops. An edit that is carried out in both keeps them so
(`Mirrors.effect`), is accepted by the whole if it is by the part (`Aligned.accepts`), and
leaves everything else in the whole as it was (`effect_outside`).
-/

namespace ComponentEdit
set_option autoImplicit false

/-- Whether the offsets of an edit lie in a text of `size` bytes, in order. -/
def Edit.Fits (size : Nat) : Edit → Prop
  | .append _ | .prepend _ => True
  | .appendLeft i _ | .appendRight i _ | .prependLeft i _ | .prependRight i _ => i ≤ size
  | .overwrite start stop _ _ => start < stop ∧ stop ≤ size
  | .remove start stop => start ≤ stop ∧ stop ≤ size

namespace Layout

/-- Two layouts that differ at most in a part: at its edges only in what is attached and
cut there. -/
structure Outside (part : Span) (m m' : Layout) : Prop where
  left : ∀ i, i < part.start ∨ part.stop < i → m'.left i = m.left i
  right : ∀ i, i < part.start ∨ part.stop < i → m'.right i = m.right i
  cut : ∀ i, i < part.start ∨ part.stop < i → m'.cut i = m.cut i
  body : ∀ i, i < part.start ∨ part.stop ≤ i → m'.body i = m.body i
  sealed : ∀ i, i ≤ part.start ∨ part.stop ≤ i → m'.sealed i = m.sealed i

/-- Nothing is attached, replaced or sealed outside of some spans. -/
structure Clean (base : Text) (spans : List Span) (m : Layout) : Prop
    extends Slots.Clean base spans m.toSlots where
  sealed : ∀ i, (∀ s ∈ spans, i ≤ s.start ∨ s.stop ≤ i) → m.sealed i = false

/-- Where a part of a text can be cut is the same in the whole, `offset` bytes further on. -/
structure Aligned (m' m : Layout) (offset size : Nat) : Prop where
  cut : ∀ i, 0 < i → i < size → m'.cut (offset + i) = m.cut i
  sealed : ∀ i, 0 < i → i < size → m'.sealed (offset + i) = m.sealed i

/-- The slots of a part are those of the whole as well, but for those at its start. -/
structure Mirrors (m' m : Layout) (offset size : Nat) : Prop extends Aligned m' m offset size where
  left : ∀ i, 0 < i → i ≤ size → m'.left (offset + i) = m.left i
  right : ∀ i, 0 < i → i ≤ size → m'.right (offset + i) = m.right i
  body : ∀ i < size, m'.body (offset + i) = m.body i

variable {part : Span} {m m' m'' : Layout} {i start stop offset size : Nat}

theorem attachLeft_left (m : Layout) (i j : Nat) (f : Text → Text) :
    (m.attachLeft i f).left j = if j = i then f (m.left i) else m.left j := by
  simp [attachLeft, Slots.attachLeft, Function.update_apply]

theorem attachRight_right (m : Layout) (i j : Nat) (f : Text → Text) :
    (m.attachRight i f).right j = if j = i then f (m.right i) else m.right j := by
  simp [attachRight, Slots.attachRight, Function.update_apply]

/-- An accepted edit fits the base. -/
theorem fits_of_accepts {base : Text} {e : Edit} (ok : m.accepts base e = true) :
    e.Fits (Text.byteSize base) := by
  cases e with
  | append content | prepend content => trivial
  | appendLeft i content | appendRight i content | prependLeft i content | prependRight i content =>
    exact le_of_admits ok
  | overwrite start stop content options =>
    obtain ⟨lt, -, he⟩ := accepts_overwrite_iff.1 ok
    exact ⟨lt, le_of_admits he⟩
  | remove start stop =>
    obtain ⟨⟨le, -, he⟩, -⟩ := accepts_remove_iff.1 ok
    exact ⟨le, Text.le_byteSize_of_isBoundary he⟩

namespace Outside

theorem refl (part : Span) (m : Layout) : m.Outside part m :=
  ⟨fun _ _ => rfl, fun _ _ => rfl, fun _ _ => rfl, fun _ _ => rfl, fun _ _ => rfl⟩

theorem trans (h : m.Outside part m') (h' : m'.Outside part m'') : m.Outside part m'' :=
  ⟨fun i hi => (h'.left i hi).trans (h.left i hi), fun i hi => (h'.right i hi).trans (h.right i hi),
    fun i hi => (h'.cut i hi).trans (h.cut i hi), fun i hi => (h'.body i hi).trans (h.body i hi),
    fun i hi => (h'.sealed i hi).trans (h.sealed i hi)⟩

theorem mark (m : Layout) (lo : part.start ≤ i) (hi : i ≤ part.stop) : m.Outside part (m.mark i) where
  left _ _ := rfl
  right _ _ := rfl
  cut j hj := by
    have : j ≠ i := by omega
    rw [mark_cut, if_neg this]
  body _ _ := rfl
  sealed _ _ := rfl

theorem attachLeft (m : Layout) (lo : part.start ≤ i) (hi : i ≤ part.stop) (f : Text → Text) :
    m.Outside part (m.attachLeft i f) where
  left j hj := by
    have : j ≠ i := by omega
    rw [attachLeft_left, if_neg this]
  right _ _ := rfl
  cut _ _ := rfl
  body _ _ := rfl
  sealed _ _ := rfl

theorem attachRight (m : Layout) (lo : part.start ≤ i) (hi : i ≤ part.stop) (f : Text → Text) :
    m.Outside part (m.attachRight i f) where
  left _ _ := rfl
  right j hj := by
    have : j ≠ i := by omega
    rw [attachRight_right, if_neg this]
  cut _ _ := rfl
  body _ _ := rfl
  sealed _ _ := rfl

theorem replace (m : Layout) (lo : part.start ≤ start) (lt : start < stop) (hi : stop ≤ part.stop)
    (content : Text) (options : OverwriteMode) :
    m.Outside part (m.replace start stop content options) where
  left j hj := by
    have : ¬(start < j ∧ j ≤ stop) := by omega
    simp [Layout.replace, this]
  right j hj := by
    have : ¬(start ≤ j ∧ j < stop) := by omega
    simp [Layout.replace, this]
  cut _ _ := rfl
  body j hj := by
    have first : j ≠ start := by omega
    have inside : ¬(start < j ∧ j < stop) := by omega
    simp [Layout.replace, first, inside]
  sealed j hj := by
    have : ¬(start < j ∧ j < stop) := by omega
    simp [Layout.replace, this]

theorem overwrite (m : Layout) (lo : part.start ≤ start) (lt : start < stop) (hi : stop ≤ part.stop)
    (content : Text) (options : OverwriteMode) :
    m.Outside part (m.overwrite start stop content options) :=
  ((mark m lo (by omega)).trans (mark _ (by omega) hi)).trans (replace _ lo lt hi content options)

end Outside

/-- An edit of a part changes nothing outside of it. -/
theorem effect_outside (m : Layout) (size : Nat) (le : part.start ≤ part.stop) {e : Edit}
    (fits : e.Fits part.length) : m.Outside part (m.effect size (e.within part)) := by
  unfold Span.length at fits
  cases e with
  | append content =>
    exact (Outside.mark m le (Nat.le_refl _)).trans (.attachRight _ le (Nat.le_refl _) _)
  | prepend content =>
    exact (Outside.mark m (Nat.le_refl _) le).trans (.attachRight _ (Nat.le_refl _) le _)
  | appendLeft i content =>
    have hi : part.start + i ≤ part.stop := by have : i ≤ _ := fits; omega
    exact (Outside.mark m (Nat.le_add_right _ _) hi).trans (.attachLeft _ (Nat.le_add_right _ _) hi _)
  | prependLeft i content =>
    have hi : part.start + i ≤ part.stop := by have : i ≤ _ := fits; omega
    exact (Outside.mark m (Nat.le_add_right _ _) hi).trans (.attachLeft _ (Nat.le_add_right _ _) hi _)
  | appendRight i content =>
    have hi : part.start + i ≤ part.stop := by have : i ≤ _ := fits; omega
    exact (Outside.mark m (Nat.le_add_right _ _) hi).trans (.attachRight _ (Nat.le_add_right _ _) hi _)
  | prependRight i content =>
    have hi : part.start + i ≤ part.stop := by have : i ≤ _ := fits; omega
    exact (Outside.mark m (Nat.le_add_right _ _) hi).trans (.attachRight _ (Nat.le_add_right _ _) hi _)
  | overwrite start stop content options =>
    obtain ⟨lt, hi⟩ := fits
    exact .overwrite m (Nat.le_add_right _ _) (by omega) (by omega) content options
  | remove start stop =>
    obtain ⟨le', hi⟩ := fits
    simp only [Edit.within, effect]
    split
    · exact .refl part m
    · exact .overwrite m (Nat.le_add_right _ _) (by omega) (by omega) [] {}

theorem clean_ofText (t : Text) (spans : List Span) : (ofText t).Clean t spans :=
  ⟨Slots.clean_ofText t spans, fun _ _ => rfl⟩

/-- What is clean outside of some spans stays so when one of them is edited. -/
theorem Clean.frame {base : Text} {spans : List Span} (h : m.Clean base spans) (hp : part ∈ spans)
    (out : m.Outside part m') : m'.Clean base spans where
  left i hi := (out.left i (hi part hp)).trans (h.left i hi)
  right i hi := (out.right i (hi part hp)).trans (h.right i hi)
  body i hi := (out.body i (hi part hp)).trans (h.body i hi)
  sealed i hi := (out.sealed i (hi part hp)).trans (h.sealed i hi)

namespace Aligned

/-- A part does not notice changes outside of it, also where they touch it. -/
theorem frame (h : m'.Aligned m offset size) (out : m'.Outside part m'')
    (apart : part.stop ≤ offset ∨ offset + size ≤ part.start) : m''.Aligned m offset size where
  cut i lo hi := (out.cut _ (by omega)).trans (h.cut i lo hi)
  sealed i lo hi := (out.sealed _ (by omega)).trans (h.sealed i lo hi)

theorem mark (h : m'.Aligned m offset size) (j : Nat) :
    (m'.mark (offset + j)).Aligned (m.mark j) offset size where
  cut i lo hi := by simp only [mark_cut, Nat.add_left_cancel_iff, h.cut i lo hi]
  sealed := h.sealed

/-- Cuts at the edges are not seen inside. -/
theorem mark_edge (h : m'.Aligned m offset size) (edge : i ≤ offset ∨ offset + size ≤ i) :
    (m'.mark i).Aligned m offset size where
  cut j lo hi := by
    have : offset + j ≠ i := by omega
    rw [mark_cut, if_neg this, h.cut j lo hi]
  sealed := h.sealed

theorem uncut (h : m'.Aligned m offset size) {j : Nat} (le : j ≤ size) :
    m'.uncut (offset + i) (offset + j) = m.uncut i j := by
  rw [Bool.eq_iff_iff, uncut_iff, uncut_iff]
  constructor
  · intro none k lo hi
    rw [← h.cut k (by omega) (by omega)]
    exact none (offset + k) (by omega) (by omega)
  · intro none k lo hi
    obtain ⟨d, rfl⟩ := Nat.exists_eq_add_of_le (show offset ≤ k by omega)
    rw [h.cut d (by omega) (by omega)]
    exact none d (by omega) (by omega)

theorem replace (h : m'.Aligned m offset size) (content : Text) (options : OverwriteMode) :
    (m'.replace (offset + start) (offset + stop) content options).Aligned
      (m.replace start stop content options) offset size where
  cut := h.cut
  sealed i lo hi := by
    by_cases inside : start < i ∧ i < stop
    · simp [Layout.replace, inside, Nat.add_assoc, h.uncut (i := start) (j := i + 1) (by omega)]
    · simp [Layout.replace, inside, h.sealed i lo hi]

theorem overwrite (h : m'.Aligned m offset size) (start stop : Nat) (content : Text)
    (options : OverwriteMode) :
    (m'.overwrite (offset + start) (offset + stop) content options).Aligned
      (m.overwrite start stop content options) offset size :=
  ((h.mark start).mark stop).replace content options

/-- An edit of the part, carried out in the part and in the whole, cuts both alike. -/
theorem effect (h : m'.Aligned m offset size) (whole : Nat) (e : Edit) :
    (m'.effect whole (e.within ⟨offset, offset + size⟩)).Aligned (m.effect size e) offset size := by
  cases e with
  | append content =>
    have edge := h.mark_edge (i := offset + size) (.inr (Nat.le_refl _))
    exact ⟨edge.cut, edge.sealed⟩
  | prepend content =>
    have edge := h.mark_edge (i := offset) (.inl (Nat.le_refl _))
    exact ⟨edge.cut, edge.sealed⟩
  | appendLeft i content | prependLeft i content | appendRight i content | prependRight i content =>
    exact ⟨(h.mark i).cut, (h.mark i).sealed⟩
  | overwrite start stop content options => exact h.overwrite start stop content options
  | remove start stop =>
    simp only [Edit.within, Layout.effect, Nat.add_left_cancel_iff]
    split
    · exact h
    · exact h.overwrite start stop [] {}

/-- The cuts of a part of a text without edits. -/
theorem ofText {t : Text} (fits : part.Fits t) :
    (Layout.ofText t).Aligned (.ofText (Text.slice t part.start part.stop)) part.start
      part.length where
  cut i lo lt := by
    have size := Text.byteSize_slice fits.start fits.stop fits.le
    have hi := Text.le_byteSize_of_isBoundary fits.stop
    unfold Span.length at lt
    simp only [Layout.ofText, size]
    rw [Bool.eq_iff_iff]
    simp only [Bool.or_eq_true, beq_iff_eq]
    omega
  sealed _ _ _ := rfl

section Accepts
variable {base : Text}

theorem admits (h : m'.Aligned m offset size) (hs : Text.isBoundary base offset = true)
    (he : Text.isBoundary base (offset + size) = true) (start : m'.sealed offset = false)
    (stop : m'.sealed (offset + size) = false) (le : i ≤ size)
    (ok : m.admits (Text.slice base offset (offset + size)) i = true) :
    m'.admits base (offset + i) = true := by
  rw [admits_iff, Text.isBoundary_slice hs he (by omega)] at ok
  rw [admits_iff]
  refine ⟨ok.1, ?_⟩
  by_cases first : i = 0
  · rw [first, Nat.add_zero]
    exact start
  · by_cases last : i = size
    · rw [last]
      exact stop
    · rw [h.sealed i (by omega) (by omega)]
      exact ok.2

/-- What a part accepts, the whole accepts, if no replacement reaches across an edge. -/
theorem accepts (h : m'.Aligned m offset size) (hs : Text.isBoundary base offset = true)
    (he : Text.isBoundary base (offset + size) = true) (start : m'.sealed offset = false)
    (stop : m'.sealed (offset + size) = false) {e : Edit} (fits : e.Fits size)
    (ok : m.accepts (Text.slice base offset (offset + size)) e = true) :
    m'.accepts base (e.within ⟨offset, offset + size⟩) = true := by
  have admits : ∀ {i : Nat}, i ≤ size →
      m.admits (Text.slice base offset (offset + size)) i = true →
      m'.admits base (offset + i) = true := h.admits hs he start stop
  cases e with
  | append content => exact admits_iff.2 ⟨he, stop⟩
  | prepend content => exact admits_iff.2 ⟨hs, start⟩
  | appendLeft i content | appendRight i content | prependLeft i content | prependRight i content =>
    exact admits fits ok
  | overwrite start stop content options =>
    obtain ⟨lt, hstart, hstop⟩ := accepts_overwrite_iff.1 ok
    exact accepts_overwrite_iff.2
      ⟨by omega, admits (Nat.le_of_lt (Nat.lt_of_lt_of_le lt fits.2)) hstart, admits fits.2 hstop⟩
  | remove start stop =>
    obtain ⟨⟨le, hstart, hstop⟩, rest⟩ := accepts_remove_iff.1 ok
    obtain ⟨-, hle⟩ := fits
    rw [Text.isBoundary_slice hs he (by omega)] at hstart hstop
    refine accepts_remove_iff.2 ⟨⟨Nat.add_le_add_left le offset, hstart, hstop⟩, ?_⟩
    rcases rest with eq | ⟨first, last⟩
    · exact .inl (by simp [eq])
    · exact .inr ⟨admits (Nat.le_trans le hle) first, admits hle last⟩

end Accepts

end Aligned

namespace Mirrors

/-- A part of a text without edits. -/
theorem ofText {t : Text} (fits : part.Fits t) :
    (Layout.ofText t).Mirrors (.ofText (Text.slice t part.start part.stop)) part.start
      part.length where
  toAligned := .ofText fits
  left _ _ _ := rfl
  right _ _ _ := rfl
  body i lt := by
    unfold Span.length at lt
    exact (Text.charAt_slice fits.start fits.stop (by omega)).symm

/-- A part does not notice changes apart from it. -/
theorem frame (h : m'.Mirrors m offset size) (out : m'.Outside part m'')
    (apart : part.stop < offset ∨ offset + size < part.start) : m''.Mirrors m offset size where
  toAligned := h.toAligned.frame out (by omega)
  left i lo hi := (out.left _ (by omega)).trans (h.left i lo hi)
  right i lo hi := (out.right _ (by omega)).trans (h.right i lo hi)
  body i hi := (out.body _ (by omega)).trans (h.body i hi)

theorem mark (h : m'.Mirrors m offset size) (j : Nat) :
    (m'.mark (offset + j)).Mirrors (m.mark j) offset size :=
  ⟨h.toAligned.mark j, h.left, h.right, h.body⟩

theorem mark_edge (h : m'.Mirrors m offset size) (edge : i ≤ offset ∨ offset + size ≤ i) :
    (m'.mark i).Mirrors m offset size :=
  ⟨h.toAligned.mark_edge edge, h.left, h.right, h.body⟩

theorem attachLeft (h : m'.Mirrors m offset size) (j : Nat) (f : Text → Text) :
    (m'.attachLeft (offset + j) f).Mirrors (m.attachLeft j f) offset size where
  toAligned := ⟨h.cut, h.sealed⟩
  left i lo hi := by
    simp only [attachLeft_left, Nat.add_left_cancel_iff]
    split
    · subst i
      rw [h.left j lo hi]
    · exact h.left i lo hi
  right := h.right
  body := h.body

theorem attachRight (h : m'.Mirrors m offset size) (j : Nat) (f : Text → Text) :
    (m'.attachRight (offset + j) f).Mirrors (m.attachRight j f) offset size where
  toAligned := ⟨h.cut, h.sealed⟩
  left := h.left
  right i lo hi := by
    simp only [attachRight_right, Nat.add_left_cancel_iff]
    split
    · subst i
      rw [h.right j lo hi]
    · exact h.right i lo hi
  body := h.body

theorem replace (h : m'.Mirrors m offset size) (content : Text) (options : OverwriteMode) :
    (m'.replace (offset + start) (offset + stop) content options).Mirrors
      (m.replace start stop content options) offset size where
  toAligned := h.toAligned.replace content options
  left i lo hi := by
    simp only [Layout.replace, Nat.add_lt_add_iff_left, Nat.add_le_add_iff_left, h.uncut hi,
      h.left i lo hi]
  right i lo hi := by
    simp only [Layout.replace, Nat.add_lt_add_iff_left, Nat.add_le_add_iff_left,
      Nat.add_left_cancel_iff, h.right i lo hi]
  body i hi := by
    simp only [Layout.replace, Nat.add_lt_add_iff_left, Nat.add_left_cancel_iff, h.body i hi]

theorem overwrite (h : m'.Mirrors m offset size) (start stop : Nat) (content : Text)
    (options : OverwriteMode) :
    (m'.overwrite (offset + start) (offset + stop) content options).Mirrors
      (m.overwrite start stop content options) offset size :=
  ((h.mark start).mark stop).replace content options

/-- An edit of the part, carried out in the part and in the whole. -/
theorem effect (h : m'.Mirrors m offset size) (whole : Nat) {e : Edit} (fits : e.Fits size) :
    (m'.effect whole (e.within ⟨offset, offset + size⟩)).Mirrors (m.effect size e) offset size := by
  cases e with
  | append content => exact (h.mark_edge (.inr (Nat.le_refl _))).attachRight size _
  | prepend content =>
    -- the part puts it in front of its first slot, the whole behind it: neither is mirrored
    have aligned := (h.mark_edge (i := offset) (.inl (Nat.le_refl _))).toAligned
    refine ⟨⟨aligned.cut, aligned.sealed⟩, ?_, ?_, h.body⟩
    · intro i lo hi
      have : i ≠ 0 := by omega
      simp only [Layout.effect, Edit.within, attachLeft_left, if_neg this]
      exact h.left i lo hi
    · intro i lo hi
      have : offset + i ≠ offset := by omega
      simp only [Layout.effect, Edit.within, attachRight_right, if_neg this]
      exact h.right i lo hi
  | appendLeft i content | prependLeft i content => exact (h.mark i).attachLeft i _
  | appendRight i content | prependRight i content => exact (h.mark i).attachRight i _
  | overwrite start stop content options => exact h.overwrite start stop content options
  | remove start stop =>
    simp only [Edit.within, Layout.effect, Nat.add_left_cancel_iff]
    split
    · exact h
    · exact h.overwrite start stop [] {}

/-- Both show the same from the first body of the part on. -/
theorem after_eq (h : m'.Mirrors m offset size) {t : Text} (hsize : Text.byteSize t = size) :
    m'.after offset t = m.after 0 t := by
  subst hsize
  refine Slots.after_congr (fun k lo hi => ?_) fun k hk => ?_
  · rw [Nat.zero_add]
    exact ⟨h.left k lo hi, h.right k lo hi⟩
  · rw [Nat.zero_add]
    exact h.body k hk

end Mirrors

end Layout

end ComponentEdit
