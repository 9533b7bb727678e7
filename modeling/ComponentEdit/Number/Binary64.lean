import ComponentEdit.Number.Power

/-!
# Floating-point numbers as exact values

A `Binary64` is a finite number of the 64-bit binary format, kept as a sign, a
whole significand below 2^53 and a power of two, so that every computation on
it is one on whole numbers. `ofRatio` rounds a fraction to the nearest such
number, a tie going to the even significand. A decimal is read in one of two
ways: `nearestDecimal` rounds its exact value once; `ofDecimal` rounds its
digits as a whole number first and scales by a power of ten after, with one more
rounding.
-/

namespace ComponentEdit
set_option autoImplicit false

/-- The number `±significand · 2^exponent`. -/
structure Binary64 where
  negative : Bool
  significand : Nat
  exponent : Int
deriving DecidableEq, Repr, Inhabited

namespace Binary64

/-- The smallest exponent of the format. -/
def minExponent : Int := -1074

/-- The exponent above which no finite number lies. -/
def maxExponent : Int := 971

/-- The quotient to the nearest whole number, a tie to the even one. -/
def divNearest (num den : Nat) : Nat :=
  let q := num / den
  let r := num % den
  if 2 * r < den then q
  else if den < 2 * r then q + 1
  else if q % 2 = 0 then q else q + 1

/-- The fraction `num / den · 2^(-e)` as a pair of whole numbers. -/
def scaled (num den : Nat) (e : Int) : Nat × Nat :=
  if 0 ≤ e then (num, den * twoTo e.toNat) else (num * twoTo (-e).toNat, den)

/-- The significand and exponent nearest to `num / den`, if it is in range. -/
def ofRatio (negative : Bool) (num den : Nat) : Option Binary64 :=
  if num = 0 then some ⟨negative, 0, minExponent⟩
  else
    let guess : Int := (num.log2 : Int) - (den.log2 : Int) - 53
    let (n, d) := scaled num den guess
    let e := if n / d < twoTo 53 then guess else guess + 1
    let e := max e minExponent
    let (n, d) := scaled num den e
    let m := divNearest n d
    let (m, e) := if m = twoTo 53 then (twoTo 52, e + 1) else (m, e)
    if maxExponent < e then none else some ⟨negative, m, e⟩

/-- The absolute value as a fraction. -/
def ratio (x : Binary64) : Nat × Nat :=
  if 0 ≤ x.exponent then (x.significand * twoTo x.exponent.toNat, 1)
  else (x.significand, twoTo (-x.exponent).toNat)

/-- The power of ten nearest to `10^k`. -/
def powerOfTen (k : Nat) : Option Binary64 := ofRatio false (tenTo k) 1

/-- The product, rounded; the sign is that of the left factor. -/
def times (x y : Binary64) : Option Binary64 :=
  ofRatio x.negative (x.ratio.1 * y.ratio.1) (x.ratio.2 * y.ratio.2)

/-- The quotient, rounded; the sign is that of the dividend. -/
def dividedBy (x y : Binary64) : Option Binary64 :=
  ofRatio x.negative (x.ratio.1 * y.ratio.2) (x.ratio.2 * y.ratio.1)

/-- Division by `10^(308 · steps)`, one factor of `10^308` at a time; zero stays. -/
def dividedByLargePowers (x : Binary64) : (steps : Nat) → Option Binary64
  | 0 => some x
  | steps + 1 =>
    if x.significand = 0 then some x
    else do
      let y ← x.dividedBy (← powerOfTen 308)
      y.dividedByLargePowers steps

/-- Division by `10^k`, in steps of at most `10^308`. -/
def dividedByPowerOfTen (x : Binary64) (k : Nat) : Option Binary64 := do
  let steps := (k - 1) / 308
  let y ← x.dividedByLargePowers steps
  if y.significand = 0 then some y else y.dividedBy (← powerOfTen (k - 308 * steps))

/-- The number nearest to `±digits · 10^exponent`; nothing when it is too large.
A decimal below `2^-1076` is nearest to zero, since `2^(3k) ≤ 10^k`. -/
def nearestDecimal (negative : Bool) (digits : Nat) (exponent : Int) : Option Binary64 :=
  if digits = 0 then some ⟨negative, 0, minExponent⟩
  else if 308 < exponent then none
  else if 0 ≤ exponent then ofRatio negative (digits * tenTo exponent.toNat) 1
  else if digits.log2 + 1077 ≤ 3 * (-exponent).toNat then some ⟨negative, 0, minExponent⟩
  else ofRatio negative digits (tenTo (-exponent).toNat)

/-- The number `±digits · 10^exponent` in two roundings; nothing when it is too
large. -/
def ofDecimal (negative : Bool) (digits : Nat) (exponent : Int) : Option Binary64 := do
  let x ← ofRatio negative digits 1
  if exponent < 0 then x.dividedByPowerOfTen (-exponent).toNat
  else if x.significand = 0 then some x
  else if 308 < exponent then none
  else x.times (← powerOfTen exponent.toNat)

/-- Whether the number is not zero, of either sign. -/
def isNonzero (x : Binary64) : Bool := x.significand != 0

end Binary64

end ComponentEdit
