/-!
# Texts and byte offsets

A text is the list of its characters, and an offset into it counts the bytes
of its UTF-8 form. `takeBytes` and `dropBytes` cut at an offset and together
lose nothing (`takeBytes_append_dropBytes`); an offset is a boundary when the
characters in front of it fill it exactly (`isBoundary_iff`). `slice?` is the
only way to read a part of a text that can fail, and it fails on offsets that
are out of order, out of range or inside a character (`slice?_eq_some_iff`).
-/

namespace ComponentEdit
set_option autoImplicit false

/-- A text, character by character. -/
abbrev Text := List Char

/-- A half-open range of byte offsets. -/
structure Span where
  start : Nat
  stop : Nat
deriving DecidableEq, Repr, Inhabited

namespace Span

/-- A span holds nothing when it does not go forward. -/
def isEmpty (s : Span) : Bool := decide (s.stop ≤ s.start)

/-- How many bytes a span covers. -/
def length (s : Span) : Nat := s.stop - s.start

end Span

namespace Text

/-- The number of bytes of the UTF-8 form. -/
def byteSize : Text → Nat
  | [] => 0
  | c :: cs => c.utf8Size + byteSize cs

/-- The characters that lie wholly in the first `i` bytes. -/
def takeBytes : Text → Nat → Text
  | [], _ => []
  | c :: cs, i => if c.utf8Size ≤ i then c :: takeBytes cs (i - c.utf8Size) else []

/-- What `takeBytes` leaves. -/
def dropBytes : Text → Nat → Text
  | [], _ => []
  | c :: cs, i => if c.utf8Size ≤ i then dropBytes cs (i - c.utf8Size) else c :: cs

/-- An offset between two characters, or at either end. -/
def isBoundary (t : Text) (i : Nat) : Bool := byteSize (t.takeBytes i) == i

/-- The characters between two offsets. -/
def slice (t : Text) (start stop : Nat) : Text :=
  Text.takeBytes (Text.dropBytes t start) (stop - start)

/-- The characters between two boundaries in order, and nothing for other offsets. -/
def slice? (t : Text) (start stop : Nat) : Option Text :=
  if start ≤ stop && Text.isBoundary t start && Text.isBoundary t stop then
    some (Text.slice t start stop)
  else none

/-- The UTF-16 units of a character: two outside the basic plane. -/
def unitsOf (c : Char) : Nat := if c.val < 0x10000 then 1 else 2

/-- The UTF-16 length of a text. -/
def units : Text → Nat
  | [] => 0
  | c :: cs => unitsOf c + units cs

@[simp] theorem byteSize_nil : byteSize [] = 0 := rfl

@[simp] theorem byteSize_cons (c : Char) (t : Text) :
    byteSize (c :: t) = c.utf8Size + byteSize t := rfl

@[simp] theorem byteSize_append (s t : Text) : byteSize (s ++ t) = byteSize s + byteSize t := by
  induction s with
  | nil => simp
  | cons c s ih => simp [ih, Nat.add_assoc]

@[simp] theorem units_append (s t : Text) : units (s ++ t) = units s + units t := by
  induction s with
  | nil => simp [units]
  | cons c s ih => simp [units, ih, Nat.add_assoc]

theorem takeBytes_append_dropBytes (t : Text) (i : Nat) :
    takeBytes t i ++ dropBytes t i = t := by
  induction t generalizing i with
  | nil => rfl
  | cons c t ih => by_cases h : c.utf8Size ≤ i <;> simp [takeBytes, dropBytes, h, ih]

theorem byteSize_takeBytes_le (t : Text) (i : Nat) : byteSize (takeBytes t i) ≤ i := by
  induction t generalizing i with
  | nil => simp [takeBytes]
  | cons c t ih =>
    by_cases h : c.utf8Size ≤ i
    · have := ih (i - c.utf8Size)
      simp only [takeBytes, h, if_true, byteSize_cons]
      omega
    · simp [takeBytes, h]

@[simp] theorem takeBytes_byteSize_append (s t : Text) : takeBytes (s ++ t) (byteSize s) = s := by
  induction s with
  | nil =>
    cases t with
    | nil => rfl
    | cons c t => simp [takeBytes, Nat.not_le.mpr c.utf8Size_pos]
  | cons c s ih => simp [takeBytes, ih]

@[simp] theorem dropBytes_byteSize_append (s t : Text) : dropBytes (s ++ t) (byteSize s) = t := by
  induction s with
  | nil =>
    cases t with
    | nil => rfl
    | cons c t => simp [dropBytes, Nat.not_le.mpr c.utf8Size_pos]
  | cons c s ih => simp [dropBytes, ih]

/-- An offset is a boundary when it is the size of a front part. -/
theorem isBoundary_iff {t : Text} {i : Nat} :
    isBoundary t i = true ↔ ∃ front back, t = front ++ back ∧ byteSize front = i := by
  constructor
  · intro h
    exact ⟨_, _, (takeBytes_append_dropBytes t i).symm, by simpa [isBoundary] using h⟩
  · rintro ⟨front, back, rfl, rfl⟩
    simp [isBoundary]

/-- A part of a text can be read exactly between two boundaries in order. -/
theorem slice?_eq_some_iff {t part : Text} {start stop : Nat} :
    slice? t start stop = some part ↔
      start ≤ stop ∧ isBoundary t start = true ∧ isBoundary t stop = true ∧
        part = slice t start stop := by
  unfold slice?
  split
  · rename_i h
    simp only [Bool.and_eq_true, decide_eq_true_eq] at h
    simp [h.1.1, h.1.2, h.2, eq_comm]
  · rename_i h
    simp only [Bool.and_eq_true, decide_eq_true_eq, not_and] at h
    simp only [reduceCtorEq, false_iff, not_and]
    intro h₁ h₂ h₃
    exact absurd h₃ (h ⟨h₁, h₂⟩)

end Text

end ComponentEdit
