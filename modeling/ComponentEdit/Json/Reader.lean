import ComponentEdit.Json.Basic

/-!
# Reading JSON

`Json.parse?` reads one value and accepts nothing after it but blanks. A
repeated key overwrites the earlier value in its place. A number without
fraction and exponent is whole while it fits into 64 bits, with or without a
sign; every other number is a floating-point number.
-/

namespace ComponentEdit
set_option autoImplicit false

namespace Json

/-- The blanks that may stand between the parts of a value. -/
def isBlank (c : Char) : Bool := c == ' ' || c == '\n' || c == '\t' || c == '\r'

/-- Drop blanks in front. -/
def skipBlanks (cs : List Char) : List Char := cs.dropWhile isBlank

/-- The value of a hexadecimal digit. -/
def hexValue? (c : Char) : Option Nat :=
  if '0' ≤ c && c ≤ '9' then some (c.toNat - '0'.toNat)
  else if 'a' ≤ c && c ≤ 'f' then some (c.toNat - 'a'.toNat + 10)
  else if 'A' ≤ c && c ≤ 'F' then some (c.toNat - 'A'.toNat + 10)
  else none

/-- Four hexadecimal digits and what follows them. -/
def readUnit : List Char → Option (Nat × List Char)
  | a :: b :: c :: d :: cs => do
    let a ← hexValue? a
    let b ← hexValue? b
    let c ← hexValue? c
    let d ← hexValue? d
    some (((a * 16 + b) * 16 + c) * 16 + d, cs)
  | _ => none

/-- The character of an escape by number: one unit, or two that form a pair. -/
def readEscapedUnit (cs : List Char) : Option (Char × List Char) := do
  let (u, cs) ← readUnit cs
  if 0xd800 ≤ u && u < 0xdc00 then
    match cs with
    | '\\' :: 'u' :: cs =>
      let (v, cs) ← readUnit cs
      if 0xdc00 ≤ v && v < 0xe000 then
        some (Char.ofNat (0x10000 + (u - 0xd800) * 0x400 + (v - 0xdc00)), cs)
      else none
    | _ => none
  else if 0xdc00 ≤ u && u < 0xe000 then none
  else some (Char.ofNat u, cs)

/-- The character that a letter after a backslash stands for. -/
def unescape? : Char → Option Char
  | '"' => some '"'
  | '\\' => some '\\'
  | '/' => some '/'
  | 'b' => some '\x08'
  | 'f' => some '\x0c'
  | 'n' => some '\n'
  | 'r' => some '\r'
  | 't' => some '\t'
  | _ => none

/-- The rest of a string after its opening quote, and what follows it. -/
def readString : (fuel : Nat) → List Char → Option (List Char × List Char)
  | 0, _ => none
  | _ + 1, [] => none
  | fuel + 1, c :: cs =>
    if c = '"' then some ([], cs)
    else if c = '\\' then
      match cs with
      | 'u' :: cs => do
        let (c, cs) ← readEscapedUnit cs
        let (s, cs) ← readString fuel cs
        some (c :: s, cs)
      | e :: cs => do
        let c ← unescape? e
        let (s, cs) ← readString fuel cs
        some (c :: s, cs)
      | [] => none
    else if c.toNat < 0x20 then none
    else do
      let (s, cs) ← readString fuel cs
      some (c :: s, cs)

/-- The value of a run of decimal digits. -/
def digitsValue (ds : List Char) : Nat := ds.foldl (fun n d => n * 10 + (d.toNat - '0'.toNat)) 0

/-- The exponent part of a number: its value and what follows. -/
def readExponent (cs : List Char) : Option (Int × List Char) :=
  let (sign, cs) := match cs with
    | '-' :: cs => ((-1 : Int), cs)
    | '+' :: cs => (1, cs)
    | cs => (1, cs)
  let ds := cs.takeWhile Char.isDigit
  if ds.isEmpty then none else some (sign * digitsValue ds, cs.dropWhile Char.isDigit)

/-- Significant digits that fit into 64 bits, and how many digits were left
out after them. -/
def significant : (n : Nat) → List Char → Nat × Nat
  | n, [] => (n, 0)
  | n, d :: ds =>
    let m := n * 10 + (d.toNat - '0'.toNat)
    if m < twoTo 64 then significant m ds else (n, ds.length + 1)

/-- The number with the given whole digits, fraction digits and exponent. -/
def decimal? (negative : Bool) (whole fraction : List Char) (exponent : Int) : Option JsonNumber :=
  let (n, dropped) := significant 0 (whole ++ fraction)
  (Binary64.ofDecimal negative n (exponent - fraction.length + dropped)).map .float

/-- The number without fraction and exponent. -/
def whole? (negative : Bool) (digits : List Char) : Option JsonNumber :=
  let n := digitsValue digits
  if negative then
    if 0 < n && n ≤ twoTo 63 then some (.whole (-n)) else decimal? true digits [] 0
  else if n < twoTo 64 then some (.whole n) else decimal? false digits [] 0

/-- A number and what follows it. -/
def readNumber (cs : List Char) : Option (JsonNumber × List Char) := do
  let (negative, cs) := match cs with
    | '-' :: cs => (true, cs)
    | cs => (false, cs)
  let whole := cs.takeWhile Char.isDigit
  let cs := cs.dropWhile Char.isDigit
  if whole.isEmpty || (whole.length != 1 && whole.head? == some '0') then none
  let (fraction, cs) ← match cs with
    | '.' :: cs =>
      let ds := cs.takeWhile Char.isDigit
      if ds.isEmpty then none else some (some ds, cs.dropWhile Char.isDigit)
    | cs => some (none, cs)
  let (exponent, cs) ← match cs with
    | 'e' :: cs => (readExponent cs).map fun (e, cs) => (some e, cs)
    | 'E' :: cs => (readExponent cs).map fun (e, cs) => (some e, cs)
    | cs => some (none, cs)
  match fraction, exponent with
  | none, none => (whole? negative whole).map (·, cs)
  | _, _ => (decimal? negative whole (fraction.getD []) (exponent.getD 0)).map (·, cs)

mutual

/-- A value and what follows it. -/
def readValue : (fuel : Nat) → List Char → Option (Json × List Char)
  | 0, _ => none
  | fuel + 1, cs =>
    match skipBlanks cs with
    | 'n' :: 'u' :: 'l' :: 'l' :: cs => some (.null, cs)
    | 't' :: 'r' :: 'u' :: 'e' :: cs => some (.bool true, cs)
    | 'f' :: 'a' :: 'l' :: 's' :: 'e' :: cs => some (.bool false, cs)
    | '"' :: cs => do
      let (s, cs) ← readString (cs.length + 1) cs
      some (.string (String.ofList s), cs)
    | '[' :: cs =>
      match skipBlanks cs with
      | ']' :: cs => some (.array [], cs)
      | cs => do
        let (items, cs) ← readItems fuel cs
        some (.array items, cs)
    | '{' :: cs =>
      match skipBlanks cs with
      | '}' :: cs => some (.object [], cs)
      | cs => do
        let (fields, cs) ← readFields fuel cs
        some (.object (JsonObject.insertAll [] fields), cs)
    | cs => (readNumber cs).map fun (n, cs) => (.number n, cs)

/-- The items of an array up to its closing bracket. -/
def readItems : (fuel : Nat) → List Char → Option (List Json × List Char)
  | 0, _ => none
  | fuel + 1, cs => do
    let (v, cs) ← readValue fuel cs
    match skipBlanks cs with
    | ',' :: cs =>
      let (vs, cs) ← readItems fuel cs
      some (v :: vs, cs)
    | ']' :: cs => some ([v], cs)
    | _ => none

/-- The fields of an object up to its closing brace. -/
def readFields : (fuel : Nat) → List Char → Option (List (String × Json) × List Char)
  | 0, _ => none
  | fuel + 1, cs =>
    match skipBlanks cs with
    | '"' :: cs => do
      let (k, cs) ← readString (cs.length + 1) cs
      match skipBlanks cs with
      | ':' :: cs =>
        let (v, cs) ← readValue fuel cs
        match skipBlanks cs with
        | ',' :: cs =>
          let (fs, cs) ← readFields fuel cs
          some ((String.ofList k, v) :: fs, cs)
        | '}' :: cs => some ([(String.ofList k, v)], cs)
        | _ => none
      | _ => none
    | _ => none

end

/-- The value that a text denotes. -/
def parse? (cs : List Char) : Option Json := do
  let (v, rest) ← readValue (2 * cs.length + 1) cs
  if (skipBlanks rest).isEmpty then some v else none

end Json

end ComponentEdit
