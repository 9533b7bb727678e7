import ComponentEdit.Proofs.Text.Offsets
import Mathlib.Data.List.Infix

/-!
# The bytes of a text

Offsets count the bytes of the UTF-8 form, and the bytes alone tell where characters start
(`isBoundary_iff_firstByte`). A byte that starts a character is never inside of another one, so a
text whose bytes start with those of another text starts with its characters
(`bytes_prefix_bytes_iff`). The byte of a line break stands for nothing else
(`count_utf8EncodeChar_break`).
-/

namespace ComponentEdit
set_option autoImplicit false

namespace Text
variable {s t : Text} {i : Nat}

/-- The UTF-8 form of a text. -/
def bytes (t : Text) : List UInt8 := t.flatMap String.utf8EncodeChar

@[simp] theorem bytes_nil : bytes [] = [] := rfl

theorem bytes_cons (c : Char) (t : Text) : bytes (c :: t) = String.utf8EncodeChar c ++ bytes t := rfl

@[simp] theorem bytes_append (s t : Text) : bytes (s ++ t) = bytes s ++ bytes t := by simp [bytes]

@[simp] theorem length_bytes (t : Text) : (bytes t).length = byteSize t := by
  induction t with
  | nil => rfl
  | cons c t ih =>
    rw [bytes] at ih ⊢
    simp [ih]

/-- The bytes of a character stand at its offset. -/
theorem getElem?_bytes_of_charAt {t : Text} {i k : Nat} {c : Char} (hi : isBoundary t i = true)
    (char : charAt t i = [c]) (hk : k < c.utf8Size) :
    (bytes t)[i + k]? = (String.utf8EncodeChar c)[k]? := by
  obtain ⟨p, r, rfl, rfl⟩ := isBoundary_iff.1 hi
  rw [charAt, dropBytes_byteSize_append] at char
  obtain ⟨d, r, rfl⟩ := List.exists_cons_of_ne_nil (l := r) (by rintro rfl; simp at char)
  obtain rfl : d = c := by simpa using char
  have inside : k < (String.utf8EncodeChar d).length := by simpa using hk
  have split : bytes (d :: r) = String.utf8EncodeChar d ++ bytes r := rfl
  rw [bytes_append, List.getElem?_append_right (by simp), length_bytes, Nat.add_sub_cancel_left,
    split, List.getElem?_append_left inside]

section Boundaries

/-- Of the bytes of a character only the first one can start a character. -/
theorem firstByte_utf8EncodeChar (c : Char) (i : Nat) :
    (∃ b ∈ (String.utf8EncodeChar c)[i]?, b.IsUTF8FirstByte) ↔ i = 0 := by
  constructor
  · rintro ⟨b, at_, first⟩
    obtain ⟨inside, rfl⟩ := List.getElem?_eq_some_iff.1 at_
    exact UInt8.isUTF8FirstByte_getElem_utf8EncodeChar.1 first
  · rintro rfl
    have inside : 0 < (String.utf8EncodeChar c).length := by simp [c.utf8Size_pos]
    exact ⟨_, List.getElem?_eq_getElem inside, UInt8.isUTF8FirstByte_getElem_zero_utf8EncodeChar⟩

theorem isBoundary_cons (c : Char) (t : Text) (i : Nat) : isBoundary (c :: t) i = true ↔
    i = 0 ∨ ∃ j, i = c.utf8Size + j ∧ isBoundary t j = true := by
  constructor
  · intro h
    obtain ⟨p, r, split, rfl⟩ := isBoundary_iff.1 h
    cases p with
    | nil => exact .inl rfl
    | cons d p =>
      obtain ⟨rfl, rfl⟩ := List.cons.inj split
      exact .inr ⟨byteSize p, rfl, isBoundary_iff.2 ⟨p, r, rfl, rfl⟩⟩
  · rintro (rfl | ⟨j, rfl, h⟩)
    · exact isBoundary_zero _
    · rw [← h, ← isBoundary_append_add [c] t j]
      simp

/-- An offset is a boundary if it is the end of the text or a character starts with its byte. -/
theorem isBoundary_iff_firstByte : isBoundary t i = true ↔
    i = byteSize t ∨ ∃ b ∈ (bytes t)[i]?, b.IsUTF8FirstByte := by
  induction t generalizing i with
  | nil =>
    constructor
    · exact fun h => .inl (Nat.le_zero.1 (le_byteSize_of_isBoundary h))
    · rintro (rfl | ⟨b, none, -⟩)
      · exact isBoundary_zero []
      · cases none
  | cons c t ih =>
    have size : (String.utf8EncodeChar c).length = c.utf8Size := String.length_utf8EncodeChar c
    rw [isBoundary_cons, bytes_cons, byteSize_cons]
    by_cases inside : i < c.utf8Size
    · rw [List.getElem?_append_left (size ▸ inside), firstByte_utf8EncodeChar]
      constructor
      · rintro (rfl | ⟨j, rfl, -⟩)
        · exact .inr rfl
        · omega
      · rintro (rfl | rfl)
        · omega
        · exact .inl rfl
    · obtain ⟨j, rfl⟩ := Nat.exists_eq_add_of_le (Nat.not_lt.1 inside)
      have pos := c.utf8Size_pos
      rw [List.getElem?_append_right (by omega), size, Nat.add_sub_cancel_left, Nat.add_left_cancel_iff,
        ← ih]
      constructor
      · rintro (zero | ⟨k, same, h⟩)
        · omega
        · rwa [Nat.add_left_cancel same]
      · exact fun h => .inr ⟨j, rfl, h⟩

end Boundaries

section Prefixes

theorem toByteArray_bytes (t : Text) : (bytes t).toByteArray = t.utf8Encode := rfl

/-- A text whose bytes start with those of another one starts with its characters. -/
theorem bytes_prefix_bytes_iff : bytes s <+: bytes t ↔ s <+: t := by
  constructor
  · rintro ⟨rest, split⟩
    apply List.isPrefix_of_utf8Encode_append_eq_utf8Encode rest.toByteArray
    rw [← toByteArray_bytes, ← toByteArray_bytes, ← split, List.toByteArray_append]
  · rintro ⟨rest, rfl⟩
    exact ⟨bytes rest, (bytes_append s rest).symm⟩

end Prefixes

section LineBreaks

/-- The bytes of a character that takes several are none of those that stand for one alone. -/
theorem le_of_mem_utf8EncodeChar {c : Char} (wide : 127 < c.val.toNat) :
    ∀ b ∈ String.utf8EncodeChar c, 128 ≤ b.toNat := by
  simp only [String.utf8EncodeChar, Nat.not_le.2 wide, if_false]
  -- There are two bytes, three or four.
  repeat' split
  all_goals
    simp only [List.forall_mem_cons, UInt8.toNat_ofNat', List.not_mem_nil, false_implies,
      implies_true, and_true]
    omega

/-- The byte of the line break stands in no other character. -/
theorem count_utf8EncodeChar_break (c : Char) :
    (String.utf8EncodeChar c).count (Char.toUInt8 '\n') = if c = '\n' then 1 else 0 := by
  by_cases wide : 127 < c.val.toNat
  · have other : c ≠ '\n' := by
      rintro rfl
      exact absurd wide (by decide)
    rw [if_neg other, List.count_eq_zero]
    exact fun h => absurd (le_of_mem_utf8EncodeChar wide _ h) (by decide)
  · have single : String.utf8EncodeChar c = [UInt8.ofNat c.val.toNat] := if_pos (Nat.not_lt.1 wide)
    have same : UInt8.ofNat c.val.toNat = Char.toUInt8 '\n' ↔ c = '\n' := by
      rw [← UInt8.toNat_inj, UInt8.toNat_ofNat', Char.ext_iff, ← UInt32.toNat_inj,
        Nat.mod_eq_of_lt (by omega)]
      rfl
    rw [single, List.count_singleton]
    simp only [beq_iff_eq, same]

end LineBreaks

end Text

end ComponentEdit
