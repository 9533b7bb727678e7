import ComponentEdit.Number.Binary64
import ComponentEdit.Toml.Value

/-!
# Numbers, booleans, dates and times

A scalar without quotes is a word: what it denotes follows from its characters
alone. Underscores may stand between two digits, and decimals have no superfluous
zeros in front. A word of this form that denotes no number of a machine format is
malformed: a whole number with no digits after the mark of its base, with other
characters after an underscore or out of range, and a decimal that is too large.
Dates are checked against the calendar, and seconds may be left out of a time.
-/

namespace ComponentEdit.Toml
set_option autoImplicit false

/-- The characters of which a word is made: all but blanks, line ends, and the signs
that end a value. -/
def isWordChar (c : Char) : Bool :=
  [' ', '\t', '\r', '\n', '#', ',', '=', '[', ']', '\x7b', '\x7d'].all (· != c)

/-- The characters without the underscores among them, each of which stands between
two digits; `afterDigit` tells whether a digit stands before the first character. -/
def ungroupedFrom? (isDigit : Char → Bool) : (afterDigit : Bool) → List Char → Option (List Char)
  | _, [] => some []
  | _, ['_'] => none
  | afterDigit, '_' :: c :: cs =>
    if afterDigit && isDigit c then (ungroupedFrom? isDigit true cs).map (c :: ·) else none
  | _, c :: cs => (ungroupedFrom? isDigit (isDigit c) cs).map (c :: ·)

/-- The characters without the underscores among them, each of which stands between
two digits. -/
def ungrouped? (isDigit : Char → Bool) (cs : List Char) : Option (List Char) :=
  ungroupedFrom? isDigit false cs

/-- The value of a digit in bases up to sixteen. -/
def digitValue (c : Char) : Nat :=
  if c.isDigit then c.toNat - '0'.toNat
  else if 'a' ≤ c then c.toNat - 'a'.toNat + 10
  else c.toNat - 'A'.toNat + 10

/-- The value of a run of digits. -/
def runValue (base : Nat) (ds : List Char) : Nat :=
  ds.foldl (fun n d => n * base + digitValue d) 0

/-- Whether a character is a digit of base sixteen. -/
def isHexDigit (c : Char) : Bool :=
  c.isDigit || ('a' ≤ c && c ≤ 'f') || ('A' ≤ c && c ≤ 'F')

/-- Whether a character is a digit of a base up to sixteen. -/
def isDigitOf (base : Nat) (c : Char) : Bool := isHexDigit c && decide (digitValue c < base)

/-- Whether a number begins with a superfluous zero. -/
def hasSpareZero : List Char → Bool
  | '0' :: c :: _ => c.isDigit || c == '_'
  | _ => false

/-- Whether a number has a minus sign, and what follows its sign. -/
def splitSign : List Char → Bool × List Char
  | '-' :: cs => (true, cs)
  | '+' :: cs => (false, cs)
  | cs => (false, cs)

/-- Whether a machine format holds a whole number. -/
def inRange (n : Int) : Bool := decide (-(twoTo 127 : Int) ≤ n) && decide (n < (twoTo 128 : Int))

/-- The whole number with the given digits. -/
def Value.ofDigits (word : List Char) (base : Nat) (negative : Bool) (ds : List Char) : Value :=
  let n : Int := runValue base ds
  let n := if negative then -n else n
  if !ds.isEmpty && ds.all (isDigitOf base) && inRange n then .integer n
  else .malformed (String.ofList word)

/-- The whole number that follows the mark of its base. -/
def based? (word : List Char) (base : Nat) (cs : List Char) : Option Value := do
  let ds ← ungrouped? (isDigitOf base) cs
  if ds.all (isDigitOf base) then some (.ofDigits word base false ds) else none

/-- Whether a character makes a number a floating-point one. -/
def isFloatMark (c : Char) : Bool := c == '.' || c == 'e' || c == 'E'

/-- A whole number in one of four bases. After its first underscore a number in
base ten may hold other characters but spaces, and is malformed then; its
underscores stand between digits of base sixteen. -/
def whole? (word : List Char) : Option Value :=
  match word with
  | '0' :: 'x' :: cs => based? word 16 cs
  | '0' :: 'o' :: cs => based? word 8 cs
  | '0' :: 'b' :: cs => based? word 2 cs
  | _ => do
    let (negative, cs) := splitSign word
    let later := cs.dropWhile Char.isDigit
    if cs.isEmpty || hasSpareZero cs || cs.any (fun c => isFloatMark c || c == ' ') then none
    if !later.isEmpty && later.head? != some '_' then none
    let ds ← ungrouped? isHexDigit cs
    some (.ofDigits word 10 negative ds)

/-- One digit or more. -/
def digits? (cs : List Char) : Option (List Char) :=
  if !cs.isEmpty && cs.all Char.isDigit then some cs else none

/-- The digits and the power of ten of a decimal without its sign, which has a
fraction, an exponent or both: `12.5e3` has the digits 125 and the power 2. -/
def decimal? (cs : List Char) : Option (List Char × Int) := do
  let isExponent (c : Char) : Bool := c == 'e' || c == 'E'
  let mantissa := cs.takeWhile fun c => !isExponent c
  let exponent := cs.dropWhile fun c => !isExponent c
  let whole ← digits? (mantissa.takeWhile (· != '.'))
  let fraction ← match mantissa.dropWhile (· != '.') with
    | [] => if exponent.isEmpty then none else some []
    | _ :: cs => digits? cs
  let power ← match exponent with
    | [] => some (0 : Int)
    | _ :: cs => do
      let (negative, cs) := splitSign cs
      let n : Int := runValue 10 (← digits? cs)
      some (if negative then -n else n)
  some (whole ++ fraction, power - fraction.length)

/-- A floating-point number: a decimal, or one of the words `inf` and `nan`. -/
def float? (word : List Char) : Option Value := do
  let (negative, cs) := splitSign word
  let text := String.ofList word
  if cs == ['i', 'n', 'f'] || cs == ['n', 'a', 'n'] then some (.float text)
  else if hasSpareZero cs then none
  else
    let (digits, power) ← decimal? (← ungrouped? Char.isDigit cs)
    match Binary64.nearestDecimal negative (runValue 10 digits) power with
    | some _ => some (.float text)
    | none => some (.malformed text)

/-- A number of exactly `count` digits and what follows it. -/
def fixedDigits? (count : Nat) (cs : List Char) : Option (Nat × List Char) :=
  let ds := cs.take count
  if ds.length == count && ds.all Char.isDigit then some (runValue 10 ds, cs.drop count) else none

/-- The days of a month. -/
def daysIn (year month : Nat) : Nat :=
  if month = 2 then
    if year % 4 = 0 && (year % 100 != 0 || year % 400 = 0) then 29 else 28
  else if [4, 6, 9, 11].contains month then 30 else 31

/-- A date and what follows it. -/
def date? (cs : List Char) : Option (List Char) := do
  let (year, cs) ← fixedDigits? 4 cs
  let '-' :: cs := cs | none
  let (month, cs) ← fixedDigits? 2 cs
  let '-' :: cs := cs | none
  let (day, cs) ← fixedDigits? 2 cs
  if 1 ≤ month && month ≤ 12 && 1 ≤ day && day ≤ daysIn year month then some cs else none

/-- Digits after a point, if there is one, and what follows them. -/
def fraction? : List Char → Option (List Char)
  | '.' :: cs =>
    if (cs.takeWhile Char.isDigit).isEmpty then none else some (cs.dropWhile Char.isDigit)
  | cs => some cs

/-- A time of day and what follows it. -/
def time? (cs : List Char) : Option (List Char) := do
  let (hour, cs) ← fixedDigits? 2 cs
  let ':' :: cs := cs | none
  let (minute, cs) ← fixedDigits? 2 cs
  if 23 < hour || 59 < minute then none
  match cs with
  | ':' :: cs =>
    let (second, cs) ← fixedDigits? 2 cs
    if 60 < second then none
    fraction? cs
  | cs => some cs

/-- Whether the rest of a time is an offset from universal time, or nothing. -/
def isOffset : List Char → Bool
  | [] => true
  | ['Z'] => true
  | ['z'] => true
  | sign :: cs =>
    if sign == '+' || sign == '-' then
      match fixedDigits? 2 cs with
      | some (hour, ':' :: cs) =>
        match fixedDigits? 2 cs with
        | some (minute, []) => decide (hour ≤ 23) && decide (minute ≤ 59)
        | _ => false
      | _ => false
    else false

/-- Whether a word is a date, a time or both. -/
def isDatetime (word : List Char) : Bool :=
  match date? word with
  | some [] => true
  | some (c :: cs) =>
    (c == 'T' || c == 't' || c == ' ') && (match time? cs with
      | some rest => isOffset rest
      | none => false)
  | none => time? word == some []

/-- What a word denotes. -/
def Value.ofWord? (word : List Char) : Option Value :=
  if word == "true".toList then some (.boolean true)
  else if word == "false".toList then some (.boolean false)
  else match whole? word with
    | some v => some v
    | none =>
      match float? word with
      | some v => some v
      | none => if isDatetime word then some (.datetime (String.ofList word)) else none

end ComponentEdit.Toml
