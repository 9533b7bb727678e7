import ComponentEdit.SourceMap.Vlq

/-!
# Quantities read back

The reader of a run of quantities gives back the numbers that were written one after the other
(`Vlq.decode?_encode_append`). Their digits are those of the alphabet, so no separator of a map is
among them (`Vlq.not_mem_encode`).
-/

namespace ComponentEdit.Vlq
set_option autoImplicit false

/-- The value of a digit. -/
def value? (c : Char) : Option Nat := alphabet.idxOf? c

/-- The numbers of a run of digits. A digit of 32 and more goes on with the next one. -/
def numbers? : List Char → Option (List Nat)
  | [] => some []
  | c :: cs => do
    let d ← value? c
    let ns ← numbers? cs
    if d < 32 then some (d :: ns)
    else match ns with
      | [] => none
      | n :: ns => some ((d - 32 + 32 * n) :: ns)

/-- The number whose sign is the lowest bit of the given one. -/
def unzigzag (n : Nat) : Int := if n % 2 = 1 then -((n / 2 : Nat) : Int) else (n / 2 : Nat)

/-- The signed numbers of a run of digits. -/
def decode? (cs : List Char) : Option (List Int) := (numbers? cs).map (·.map unzigzag)

theorem value?_digit {d : Nat} (lt : d < 64) : value? (digit d) = some d := by
  have all : ∀ d < 64, value? (digit d) = some d := by decide
  exact all d lt

theorem digit_mem (d : Nat) : digit d ∈ alphabet := by
  unfold digit
  rw [List.getD_eq_getElem?_getD]
  cases h : alphabet[d]? with
  | some c => exact List.mem_of_getElem? h
  | none => decide

/-- The digits of a number are read as the number, in front of what follows them. -/
theorem numbers?_digits_append (n : Nat) (cs : List Char) :
    numbers? (digits n ++ cs) = (numbers? cs).map (n :: ·) := by
  induction n using Nat.strongRecOn with
  | ind n ih =>
    rw [digits]
    split
    · rename_i small
      cases rest : numbers? cs <;>
        simp [numbers?, value?_digit (Nat.lt_trans small (by decide)), rest, small]
    · rename_i large
      have more : ¬n % 32 + 32 < 32 := by omega
      have value : n % 32 + 32 - 32 + 32 * (n / 32) = n := by omega
      cases rest : numbers? cs <;>
        simp only [numbers?, List.cons_append, value?_digit (d := n % 32 + 32) (by omega),
          ih (n / 32) (by omega), rest, Option.map_some, Option.map_none, Option.bind_eq_bind,
          Option.bind_some, Option.bind_none, more, if_false, value]

theorem unzigzag_zigzag (n : Int) : unzigzag (zigzag n) = n := by
  unfold zigzag unzigzag
  split <;> split <;> omega

/-- A written number is read as the number, in front of what follows it. -/
theorem decode?_encode_append (n : Int) (cs : List Char) :
    decode? (encode n ++ cs) = (decode? cs).map (n :: ·) := by
  rw [decode?, encode, numbers?_digits_append, decode?]
  cases numbers? cs <;> simp [unzigzag_zigzag]

theorem encode_ne_nil (n : Int) : encode n ≠ [] := by
  unfold encode
  rw [digits]
  split <;> simp

/-- The digits of a number are those of the alphabet. -/
theorem mem_alphabet_of_mem_encode {n : Int} {c : Char} (h : c ∈ encode n) : c ∈ alphabet := by
  have all : ∀ n, ∀ c ∈ digits n, c ∈ alphabet := by
    intro n
    induction n using Nat.strongRecOn with
    | ind n ih =>
      intro c hc
      rw [digits] at hc
      split at hc
      · rw [List.mem_singleton.1 hc]
        exact digit_mem n
      · rcases List.mem_cons.1 hc with rfl | hc
        · exact digit_mem _
        · exact ih (n / 32) (by omega) c hc
  exact all _ c h

/-- What is no digit does not stand in a written number. -/
theorem not_mem_encode {n : Int} {c : Char} (foreign : c ∉ alphabet) : c ∉ encode n :=
  fun h => foreign (mem_alphabet_of_mem_encode h)

end ComponentEdit.Vlq
