/-!
# Powers of two and ten

The two bases in which numbers are scaled and bounded here.
-/

namespace ComponentEdit
set_option autoImplicit false

/-- The power of two with the given exponent. -/
def twoTo (k : Nat) : Nat := Nat.pow 2 k

/-- The power of ten with the given exponent. -/
def tenTo (k : Nat) : Nat := Nat.pow 10 k

end ComponentEdit
