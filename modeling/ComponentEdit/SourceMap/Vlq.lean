/-!
# Variable-length quantities in base 64

A signed number as a run of base 64 digits: the sign is the lowest bit, each
digit carries five bits, lowest first, and its sixth bit says that more follow.
-/

namespace ComponentEdit.Vlq
set_option autoImplicit false

/-- The digits of base 64 in their order. -/
def alphabet : List Char :=
  "ABCDEFGHIJKLMNOPQRSTUVWXYZabcdefghijklmnopqrstuvwxyz0123456789+/".toList

/-- The digit of a number below 64. -/
def digit (n : Nat) : Char := alphabet.getD n 'A'

/-- The sign in the lowest bit. -/
def zigzag (n : Int) : Nat := if n < 0 then 2 * n.natAbs + 1 else 2 * n.natAbs

/-- Five bits a digit, lowest first. -/
def digits (n : Nat) : List Char :=
  if h : n < 32 then [digit n] else digit (n % 32 + 32) :: digits (n / 32)
termination_by n
decreasing_by omega

/-- The digits of a signed number. -/
def encode (n : Int) : List Char := digits (zigzag n)

end ComponentEdit.Vlq
