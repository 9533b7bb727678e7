import ComponentEdit.Location
import ComponentEdit.Proofs.Text.Offsets

/-!
# What a search finds

`OccursAt` says that a needle stands in a text at an offset, without a word about how it is looked
for. The first match of the scan from left to right is the first of these places
(`find?_eq_some_iff`).
-/

namespace ComponentEdit
set_option autoImplicit false

namespace Text

/-- A needle stands in a text at an offset. -/
def OccursAt (t needle : Text) (i : Nat) : Prop :=
  ∃ front back, t = front ++ (needle ++ back) ∧ byteSize front = i

/-- The first place at which a needle stands in a text. -/
def FirstAt (t needle : Text) (i : Nat) : Prop :=
  OccursAt t needle i ∧ ∀ j, OccursAt t needle j → i ≤ j

variable {t needle : Text} {c : Char} {i : Nat}

/-- A text without a character goes on up to where it stands. -/
theorem forall_bne (h : c ∉ t) : ∀ d ∈ t, (d != c) = true := fun d hd => by
  simpa using fun same : d = c => h (same ▸ hd)

section Places

/-- A needle stands in a text where the text reads like it. -/
theorem occursAt_iff : OccursAt t needle i ↔ isBoundary t i = true ∧
    isBoundary t (i + byteSize needle) = true ∧ slice t i (i + byteSize needle) = needle := by
  constructor
  · rintro ⟨front, back, rfl, rfl⟩
    refine ⟨isBoundary_iff.2 ⟨front, needle ++ back, rfl, rfl⟩,
      isBoundary_iff.2 ⟨front ++ needle, back, by simp, by simp⟩, slice_parts front needle back⟩
  · rintro ⟨start, stop, read⟩
    obtain ⟨front, middle, back, split, lo, hi⟩ :=
      exists_parts start stop (Nat.le_add_right _ _)
    refine ⟨front, back, ?_, lo.symm⟩
    rw [hi, lo, split, slice_parts] at read
    rw [split, read]

theorem not_occursAt_nil (ne : needle ≠ []) : ¬OccursAt [] needle i := by
  rintro ⟨front, back, split, -⟩
  simp [ne] at split

/-- A needle stands at the start of a text, or behind its first character. -/
theorem occursAt_cons : OccursAt (c :: t) needle i ↔
    (i = 0 ∧ needle <+: c :: t) ∨ ∃ j, i = c.utf8Size + j ∧ OccursAt t needle j := by
  constructor
  · rintro ⟨front, back, split, rfl⟩
    cases front with
    | nil => exact .inl ⟨rfl, back, split.symm⟩
    | cons d front =>
      obtain ⟨rfl, rfl⟩ := List.cons.inj split
      exact .inr ⟨byteSize front, rfl, front, back, rfl, rfl⟩
  · rintro (⟨rfl, back, split⟩ | ⟨_, rfl, front, back, rfl, rfl⟩)
    · exact ⟨[], back, split.symm, rfl⟩
    · exact ⟨c :: front, back, rfl, rfl⟩

theorem firstAt_of_head (h : needle <+: t) : FirstAt t needle i ↔ i = 0 := by
  obtain ⟨back, split⟩ := h
  have here : OccursAt t needle 0 := ⟨[], back, split.symm, rfl⟩
  constructor
  · exact fun first => Nat.le_zero.1 (first.2 0 here)
  · rintro rfl
    exact ⟨here, fun j _ => Nat.zero_le j⟩

theorem firstAt_cons (no : ¬needle <+: c :: t) : FirstAt (c :: t) needle i ↔
    ∃ j, i = c.utf8Size + j ∧ FirstAt t needle j := by
  simp only [FirstAt, occursAt_cons, no, and_false, false_or]
  constructor
  · rintro ⟨⟨j, rfl, here⟩, least⟩
    refine ⟨j, rfl, here, fun k there => ?_⟩
    have le := least _ ⟨k, rfl, there⟩
    omega
  · rintro ⟨j, rfl, here, least⟩
    refine ⟨⟨j, rfl, here⟩, ?_⟩
    rintro _ ⟨k, rfl, there⟩
    have le := least k there
    omega

/-- A character first stands behind a front part without it. -/
theorem firstAt_char {front : Text} (absent : c ∉ front) (rest : Text) :
    FirstAt (front ++ c :: rest) [c] (byteSize front) := by
  induction front with
  | nil => exact (firstAt_of_head (List.prefix_append [c] rest)).2 rfl
  | cons d front ih =>
    rw [List.mem_cons, not_or] at absent
    have no : ¬[c] <+: d :: (front ++ c :: rest) := fun head =>
      absent.1 (List.cons_prefix_cons.1 head).1
    exact (firstAt_cons no).2 ⟨_, rfl, ih absent.2⟩

/-- The first place in a front part of a text is the first place in the text. -/
theorem FirstAt.of_front {front : Text} (h : front <+: t) (first : FirstAt front needle i) :
    FirstAt t needle i := by
  obtain ⟨rest, rfl⟩ := h
  obtain ⟨⟨before, behind, split, size⟩, least⟩ := first
  refine ⟨⟨before, behind ++ rest, by simp [split], size⟩, ?_⟩
  rintro j ⟨before', behind', split', rfl⟩
  refine Nat.le_of_not_lt fun earlier => ?_
  have total : byteSize front = byteSize before + (byteSize needle + byteSize behind) := by
    rw [split, byteSize_append, byteSize_append]
  -- A place that is further in front would end before the front part does.
  have inside : before' ++ needle <+: front := by
    have reads : before' ++ needle <+: front ++ rest := ⟨behind', by simp [split']⟩
    refine (List.prefix_or_prefix_of_prefix reads (List.prefix_append ..)).resolve_right ?_
    rintro ⟨more, longer⟩
    have sizes := congrArg byteSize longer
    simp only [byteSize_append] at sizes
    omega
  obtain ⟨behind'', split''⟩ := inside
  have le := least _ ⟨before', behind'', by simp [← split''], rfl⟩
  exact Nat.not_le.2 earlier le

end Places

section Scan

/-- The first match of a scan is the first place of the needle. -/
theorem head?_scan (ne : needle ≠ []) (offset : Nat) :
    (scan needle 0 offset t).head? = some i ↔ ∃ j, i = offset + j ∧ FirstAt t needle j := by
  induction t generalizing offset with
  | nil =>
    have nowhere : ∀ j, ¬FirstAt [] needle j := fun j first => not_occursAt_nil ne first.1
    simp [scan, nowhere]
  | cons c t ih =>
    rw [scan]
    by_cases here : needle <+: c :: t
    · rw [if_pos (List.isPrefixOf_iff_prefix.2 here)]
      simp [firstAt_of_head here, eq_comm]
    · rw [if_neg (mt List.isPrefixOf_iff_prefix.1 here), ih]
      simp only [firstAt_cons here]
      constructor
      · rintro ⟨j, rfl, first⟩
        exact ⟨_, Nat.add_assoc .., j, rfl, first⟩
      · rintro ⟨_, rfl, j, rfl, first⟩
        exact ⟨j, (Nat.add_assoc ..).symm, first⟩

/-- A search finds the first place of a needle that is not empty. -/
theorem find?_eq_some_iff : find? t needle = some i ↔ needle ≠ [] ∧ FirstAt t needle i := by
  unfold find? occurrences
  by_cases nil : needle = []
  · simp [nil]
  · rw [if_neg (by simpa using nil), head?_scan nil]
    simp [nil]

end Scan

end Text

namespace Location

/-- The location of a part between two boundaries covers the offsets it was made from. -/
theorem span_between {t : Text} {start stop : Nat} (hs : Text.isBoundary t start = true)
    (he : Text.isBoundary t stop = true) : (between t start stop).span = ⟨start, stop⟩ := by
  simp only [Text.isBoundary, beq_iff_eq] at hs he
  simp [span, between, Position.after, hs, he]

theorem head?_findAll (t needle : Text) : (findAll t needle).head? =
    (Text.find? t needle).map fun i => between t i (i + Text.byteSize needle) := by
  rw [findAll, List.head?_map, Text.find?]

end Location

end ComponentEdit
