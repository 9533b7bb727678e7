import ComponentEdit.Number.Binary64

/-!
# The shortest decimal that reads back

`Binary64.shortest` finds the fewest digits that still denote the number: it
tries grids of decimals from coarse to fine and takes the first that has a
point among the reals that round to the number. Of two such points the nearer
wins, and the even one when both are as near. `Binary64.text` lays the digits
out: positional where the exponent is small, with at least one decimal, and
otherwise with one digit before the point and an exponent with its sign.
-/

namespace ComponentEdit.Binary64
set_option autoImplicit false

/-- The reals that round to a number: bounds and value over one denominator,
and whether the bounds themselves belong. -/
structure Interval where
  low : Nat
  value : Nat
  high : Nat
  denominator : Nat
  closed : Bool

/-- The reals that round to `x`, sign aside. The gap below a power of two is
half the gap above, except at the bottom of the range. -/
def interval (x : Binary64) : Interval :=
  let m := x.significand
  let half := if m = twoTo 52 && minExponent < x.exponent then 1 else 2
  let (scale, den) :=
    if 0 ≤ x.exponent then (twoTo x.exponent.toNat, 1) else (1, twoTo (-x.exponent).toNat)
  ⟨(4 * m - half) * scale, 4 * m * scale, (4 * m + 2) * scale, 4 * den, m % 2 = 0⟩

/-- Whether the decimal `n · 10^k` lies in the interval. -/
def Interval.holds (i : Interval) (n : Nat) (k : Int) : Bool :=
  let v := if 0 ≤ k then n * tenTo k.toNat * i.denominator else n * i.denominator
  let unit := if 0 ≤ k then 1 else tenTo (-k).toNat
  if i.closed then decide (i.low * unit ≤ v) && decide (v ≤ i.high * unit)
  else decide (i.low * unit < v) && decide (v < i.high * unit)

/-- The point of the grid of step `10^k` that lies in the interval and is
nearest to the value. -/
def Interval.onGrid (i : Interval) (k : Int) : Option Nat :=
  let num := if 0 ≤ k then i.value else i.value * tenTo (-k).toNat
  let den := if 0 ≤ k then i.denominator * tenTo k.toNat else i.denominator
  let below := num / den
  let rest := num % den
  let lowFirst := decide (2 * rest < den) || (decide (2 * rest = den) && below % 2 = 0)
  let near := if lowFirst then below else below + 1
  let far := if lowFirst then below + 1 else below
  if near ≠ 0 && i.holds near k then some near
  else if far ≠ 0 && i.holds far k then some far
  else none

/-- Go to finer grids until one has a point; 17 digits always do. -/
def Interval.refine (i : Interval) : (fuel : Nat) → (k : Int) → Nat × Int
  | 0, k => (0, k)
  | fuel + 1, k =>
    match i.onGrid k with
    | some n => (n, k)
    | none => i.refine fuel (k - 1)

/-- Digits and exponent without trailing zeros among the digits. -/
def trimZeros : (fuel : Nat) → Nat → Int → Nat × Int
  | 0, n, k => (n, k)
  | fuel + 1, n, k => if n % 10 = 0 then trimZeros fuel (n / 10) (k + 1) else (n, k)

/-- The fewest digits `n` and the exponent `k` such that `n · 10^k` reads back
as `x`, sign aside. -/
def shortest (x : Binary64) : Nat × Int :=
  if x.significand = 0 then (0, 0)
  else
    let i := x.interval
    let (num, den) := x.ratio
    let magnitude : Int := ((Nat.toDigits 10 num).length : Int) - (Nat.toDigits 10 den).length + 1
    let (n, k) := i.refine 20 magnitude
    trimZeros 20 n k

/-- A run of zeros. -/
def zeros (n : Nat) : String := String.ofList (List.replicate n '0')

/-- The text of a number: `1.0`, `0.5`, `1000.0`, `1e+16`, `1.5e-7`. Positions
are written out while the point falls after at most 16 digits or before at most
five zeros. -/
def text (x : Binary64) : String :=
  let sign := if x.negative then "-" else ""
  let (n, k) := x.shortest
  if n = 0 then sign ++ "0.0"
  else
    let digits := Nat.toDigits 10 n
    let count : Int := digits.length
    let point := count + k
    let body :=
      if 0 ≤ k && point ≤ 16 then String.ofList digits ++ zeros k.toNat ++ ".0"
      else if 0 < point && point ≤ 16 then
        String.ofList (digits.take point.toNat) ++ "." ++ String.ofList (digits.drop point.toNat)
      else if -5 < point && point ≤ 0 then
        "0." ++ zeros (-point).toNat ++ String.ofList digits
      else
        let mantissa := match digits with
          | [d] => String.ofList [d]
          | d :: ds => String.ofList [d] ++ "." ++ String.ofList ds
          | [] => ""
        let exponent := point - 1
        mantissa ++ (if 0 ≤ exponent then "e+" else "e-") ++ toString exponent.natAbs
    sign ++ body

end ComponentEdit.Binary64
