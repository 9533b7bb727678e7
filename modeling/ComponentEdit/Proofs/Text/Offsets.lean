import ComponentEdit.Text.Basic

/-!
# Boundaries and the parts between them

A boundary cuts a text into a front whose size it is and the rest
(`exists_parts` for two of them). Everything about `slice` follows from this
form: neighbouring slices join (`slice_append_slice`), a slice is cut where the
whole text is (`takeBytes_slice`, `dropBytes_slice`), and its boundaries and
characters are those of the whole text, shifted (`isBoundary_slice`,
`charAt_slice`).
-/

namespace ComponentEdit
set_option autoImplicit false

namespace Text

/-- The character at an offset as a text, which is empty from the end on. -/
def charAt (t : Text) (i : Nat) : Text := (Text.dropBytes t i).take 1

section Shift
variable (p r : Text) (i : Nat)

theorem takeBytes_append_add : takeBytes (p ++ r) (byteSize p + i) = p ++ takeBytes r i := by
  induction p with
  | nil => simp
  | cons c p ih =>
    have e : c.utf8Size + byteSize p + i - c.utf8Size = byteSize p + i := by omega
    have le : c.utf8Size ≤ c.utf8Size + byteSize p + i := by omega
    simp [takeBytes, e, le, ih]

theorem dropBytes_append_add : dropBytes (p ++ r) (byteSize p + i) = dropBytes r i := by
  induction p with
  | nil => simp
  | cons c p ih =>
    have e : c.utf8Size + byteSize p + i - c.utf8Size = byteSize p + i := by omega
    have le : c.utf8Size ≤ c.utf8Size + byteSize p + i := by omega
    simp [dropBytes, e, le, ih]

/-- Behind a front part the boundaries are those of the rest, shifted. -/
theorem isBoundary_append_add : isBoundary (p ++ r) (byteSize p + i) = isBoundary r i := by
  rw [Bool.eq_iff_iff]
  simp [isBoundary, takeBytes_append_add]

theorem charAt_append_add : charAt (p ++ r) (byteSize p + i) = charAt r i := by
  rw [charAt, dropBytes_append_add, charAt]

end Shift

@[simp] theorem takeBytes_zero (t : Text) : takeBytes t 0 = [] := by
  simpa using takeBytes_byteSize_append [] t

@[simp] theorem dropBytes_zero (t : Text) : dropBytes t 0 = t := by
  simpa using dropBytes_byteSize_append [] t

@[simp] theorem takeBytes_byteSize (t : Text) : takeBytes t (byteSize t) = t := by
  simpa using takeBytes_byteSize_append t []

@[simp] theorem dropBytes_byteSize (t : Text) : dropBytes t (byteSize t) = [] := by
  simpa using dropBytes_byteSize_append t []

@[simp] theorem isBoundary_zero (t : Text) : isBoundary t 0 = true := by simp [isBoundary]

@[simp] theorem isBoundary_byteSize (t : Text) : isBoundary t (byteSize t) = true := by
  simp [isBoundary]

theorem le_byteSize_of_isBoundary {t : Text} {i : Nat} (h : isBoundary t i = true) :
    i ≤ byteSize t := by
  obtain ⟨p, r, rfl, rfl⟩ := isBoundary_iff.1 h
  simp

theorem byteSize_pos {t : Text} (h : t ≠ []) : 0 < byteSize t := by
  obtain ⟨c, cs, rfl⟩ := List.exists_cons_of_ne_nil h
  have := c.utf8Size_pos
  simp only [byteSize_cons]
  omega

/-- Two boundaries in order cut a text in three. -/
theorem exists_parts {t : Text} {a b : Nat} (ha : isBoundary t a = true)
    (hb : isBoundary t b = true) (h : a ≤ b) :
    ∃ p m q, t = p ++ (m ++ q) ∧ a = byteSize p ∧ b = byteSize p + byteSize m := by
  obtain ⟨p, r, rfl, rfl⟩ := isBoundary_iff.1 ha
  obtain ⟨k, rfl⟩ := Nat.exists_eq_add_of_le h
  rw [isBoundary_append_add] at hb
  obtain ⟨m, q, rfl, rfl⟩ := isBoundary_iff.1 hb
  exact ⟨p, m, q, rfl, rfl, rfl⟩

/-- The middle one of three parts is a slice. -/
theorem slice_parts (p m q : Text) :
    slice (p ++ (m ++ q)) (byteSize p) (byteSize p + byteSize m) = m := by
  simp [slice]

theorem slice?_parts (p m q : Text) :
    slice? (p ++ (m ++ q)) (byteSize p) (byteSize p + byteSize m) = some m :=
  slice?_eq_some_iff.2 ⟨Nat.le_add_right _ _, isBoundary_iff.2 ⟨p, m ++ q, rfl, rfl⟩,
    isBoundary_iff.2 ⟨p ++ m, q, (List.append_assoc ..).symm, byteSize_append ..⟩,
    (slice_parts p m q).symm⟩

section Slice
variable {t : Text} {a b c : Nat}

@[simp] theorem slice_self (t : Text) (a : Nat) : slice t a a = [] := by simp [slice]

@[simp] theorem slice_whole (t : Text) : slice t 0 (byteSize t) = t := by simp [slice]

theorem slice_zero (t : Text) (a : Nat) : slice t 0 a = takeBytes t a := by simp [slice]

theorem slice_byteSize (ha : isBoundary t a = true) : slice t a (byteSize t) = dropBytes t a := by
  obtain ⟨p, r, rfl, rfl⟩ := isBoundary_iff.1 ha
  simp [slice]

theorem byteSize_slice (ha : isBoundary t a = true) (hb : isBoundary t b = true) (h : a ≤ b) :
    byteSize (slice t a b) = b - a := by
  obtain ⟨p, m, q, rfl, rfl, rfl⟩ := exists_parts ha hb h
  rw [slice_parts]
  omega

theorem add_byteSize_slice (ha : isBoundary t a = true) (hb : isBoundary t b = true) (h : a ≤ b) :
    a + byteSize (slice t a b) = b := by
  rw [byteSize_slice ha hb h, Nat.add_sub_cancel' h]

theorem slice_ne_nil (ha : isBoundary t a = true) (hb : isBoundary t b = true) (h : a < b) :
    slice t a b ≠ [] := by
  intro e
  have size := byteSize_slice ha hb (Nat.le_of_lt h)
  rw [e, byteSize_nil] at size
  omega

/-- Slices that meet at a boundary join. -/
theorem slice_append_slice (ha : isBoundary t a = true) (hb : isBoundary t b = true)
    (hc : isBoundary t c = true) (hab : a ≤ b) (hbc : b ≤ c) :
    slice t a b ++ slice t b c = slice t a c := by
  obtain ⟨p, m, q, rfl, rfl, rfl⟩ := exists_parts ha hb hab
  obtain ⟨k, rfl⟩ := Nat.exists_eq_add_of_le hbc
  rw [← byteSize_append, ← List.append_assoc, isBoundary_append_add] at hc
  obtain ⟨n, s, rfl, rfl⟩ := isBoundary_iff.1 hc
  have whole := slice_parts p (m ++ n) s
  have second := slice_parts (p ++ m) n s
  simp only [byteSize_append, List.append_assoc, ← Nat.add_assoc] at whole second
  rw [slice_parts, whole, second]

/-- A boundary of the whole text between the ends of a slice, seen from the slice. -/
theorem isBoundary_slice (ha : isBoundary t a = true) (hb : isBoundary t b = true) {i : Nat}
    (h : a + i ≤ b) : isBoundary (slice t a b) i = isBoundary t (a + i) := by
  obtain ⟨p, m, q, rfl, rfl, rfl⟩ := exists_parts ha hb (by omega)
  rw [slice_parts, isBoundary_append_add, Bool.eq_iff_iff]
  constructor
  · intro hi
    obtain ⟨f, g, rfl, rfl⟩ := isBoundary_iff.1 hi
    exact isBoundary_iff.2 ⟨f, g ++ q, by simp, rfl⟩
  · intro hi
    have hm : isBoundary (m ++ q) (byteSize m) = true := isBoundary_iff.2 ⟨m, q, rfl, rfl⟩
    obtain ⟨f, g, s, e, rfl, hs⟩ := exists_parts hi hm (by omega)
    have : m = f ++ g := by
      have left := takeBytes_byteSize_append m q
      have right := takeBytes_byteSize_append (f ++ g) s
      rw [List.append_assoc, ← e, byteSize_append, ← hs, left] at right
      exact right
    exact isBoundary_iff.2 ⟨f, g, this, rfl⟩

/-- A slice cut at a boundary: the part before it. -/
theorem takeBytes_slice (ha : isBoundary t a = true) (hb : isBoundary t b = true)
    (hc : isBoundary t c = true) (hab : a ≤ b) (hbc : b ≤ c) :
    takeBytes (slice t a c) (b - a) = slice t a b := by
  rw [← slice_append_slice ha hb hc hab hbc, ← byteSize_slice ha hb hab,
    takeBytes_byteSize_append]

/-- A slice cut at a boundary: the part from it on. -/
theorem dropBytes_slice (ha : isBoundary t a = true) (hb : isBoundary t b = true)
    (hc : isBoundary t c = true) (hab : a ≤ b) (hbc : b ≤ c) :
    dropBytes (slice t a c) (b - a) = slice t b c := by
  rw [← slice_append_slice ha hb hc hab hbc, ← byteSize_slice ha hb hab,
    dropBytes_byteSize_append]

theorem dropBytes_append_of_le (s r : Text) {i : Nat} (h : i ≤ byteSize s) :
    dropBytes (s ++ r) i = dropBytes s i ++ r := by
  induction s generalizing i with
  | nil => simp_all
  | cons c s ih =>
    by_cases hc : c.utf8Size ≤ i
    · have := ih (i := i - c.utf8Size) (by simp only [byteSize_cons] at h; omega)
      simp [dropBytes, hc, this]
    · simp [dropBytes, hc]

/-- A change inside a slice, seen from the whole text. -/
theorem splice_slice (ha : isBoundary t a = true) (hb : isBoundary t b = true) (h : a ≤ b)
    {content : Text} {i j : Nat} (hi : isBoundary (slice t a b) i = true)
    (hj : isBoundary (slice t a b) j = true) :
    takeBytes t a ++ (takeBytes (slice t a b) i ++ content ++ dropBytes (slice t a b) j) ++
        dropBytes t b =
      takeBytes t (a + i) ++ content ++ dropBytes t (a + j) := by
  obtain ⟨p, m, q, rfl, rfl, rfl⟩ := exists_parts ha hb h
  rw [slice_parts] at hi hj ⊢
  obtain ⟨s, r, rfl, rfl⟩ := isBoundary_iff.1 hi
  have back : dropBytes (p ++ (s ++ r ++ q)) (byteSize p + j) = dropBytes (s ++ r) j ++ q := by
    rw [dropBytes_append_add, dropBytes_append_of_le _ _ (le_byteSize_of_isBoundary hj)]
  have behind : dropBytes (p ++ (s ++ r ++ q)) (byteSize p + byteSize (s ++ r)) = q := by
    rw [dropBytes_append_add, dropBytes_byteSize_append]
  rw [back, behind, takeBytes_append_add, List.append_assoc s r q]
  simp

/-- The character that a byte belongs to. -/
theorem exists_char_at {t : Text} {i : Nat} (h : i < byteSize t) :
    ∃ s c r, t = s ++ c :: r ∧ byteSize s ≤ i ∧ i < byteSize s + c.utf8Size := by
  induction t generalizing i with
  | nil => simp at h
  | cons c t ih =>
    by_cases first : i < c.utf8Size
    · exact ⟨[], c, t, rfl, Nat.zero_le _, by simpa using first⟩
    · rw [byteSize_cons] at h
      obtain ⟨s, d, r, rfl, lo, hi⟩ := ih (i := i - c.utf8Size) (by omega)
      exact ⟨c :: s, d, r, rfl, by rw [byteSize_cons]; omega, by rw [byteSize_cons]; omega⟩

theorem charAt_ne_nil {t : Text} {i : Nat} (h : i < byteSize t) : charAt t i ≠ [] := by
  intro e
  have nil : dropBytes t i = [] := by
    cases hd : dropBytes t i with
    | nil => rfl
    | cons c r => simp [charAt, hd] at e
  have whole := takeBytes_append_dropBytes t i
  have le := byteSize_takeBytes_le t i
  rw [nil, List.append_nil] at whole
  rw [whole] at le
  omega

/-- The characters of a slice are those of the whole text. -/
theorem charAt_slice (ha : isBoundary t a = true) (hb : isBoundary t b = true) {i : Nat}
    (h : a + i < b) : charAt (slice t a b) i = charAt t (a + i) := by
  obtain ⟨p, m, q, rfl, rfl, rfl⟩ := exists_parts ha hb (by omega)
  have hne : dropBytes m i ≠ [] := by
    intro e
    exact charAt_ne_nil (t := m) (i := i) (by omega) (by simp [charAt, e])
  rw [slice_parts, charAt_append_add, charAt, charAt, dropBytes_append_of_le m q (by omega)]
  obtain ⟨x, r, e⟩ := List.exists_cons_of_ne_nil hne
  simp [e]

@[simp] theorem charAt_cons_zero (x : Char) (r : Text) : charAt (x :: r) 0 = [x] := by
  simp [charAt]

end Slice

end Text

end ComponentEdit
