import ComponentEdit.Toml.Quoted
import ComponentEdit.Toml.Scalar

/-!
# Reading the lines of a TOML document

A document is a row of statements: table headers, headers of tables in an
array, and assignments to dotted keys. Tables in braces are assembled while
they are read, since nothing can be added to them later. Blanks, line breaks
and comments may stand between the items of arrays, and in tables in braces also
around the sign that joins a key with its value. Arrays and tables in braces are
nested at most `maxDepth` deep, and a key has at most `maxKeyParts` parts.
-/

namespace ComponentEdit.Toml
set_option autoImplicit false

/-- Whether a character is a blank on a line. -/
def isBlank (c : Char) : Bool := c == ' ' || c == '\t'

/-- Drop blanks on a line. -/
def skipBlanks (cs : List Char) : List Char := cs.dropWhile isBlank

/-- Drop a comment, which ends before a line break. -/
def skipComment? : List Char → Option (List Char)
  | '#' :: cs =>
    match cs.dropWhile isPlain with
    | [] => some []
    | '\n' :: cs => some ('\n' :: cs)
    | '\r' :: '\n' :: cs => some ('\r' :: '\n' :: cs)
    | _ => none
  | cs => some cs

/-- Drop blanks, line breaks and comments. -/
def skipGap? : (fuel : Nat) → List Char → Option (List Char)
  | 0, cs => some cs
  | fuel + 1, cs => do
    match ← skipComment? (skipBlanks cs) with
    | '\n' :: cs => skipGap? fuel cs
    | '\r' :: '\n' :: cs => skipGap? fuel cs
    | cs => some cs

/-- Whether a character may stand in a key without quotes. -/
def isBareKeyChar (c : Char) : Bool := c.isAlphanum || c == '_' || c == '-'

/-- One part of a dotted key and what follows it. -/
def keyPart? (cs : List Char) : Option (String × List Char) :=
  match cs with
  | '"' :: '"' :: '"' :: _ => none
  | '\'' :: '\'' :: '\'' :: _ => none
  | '"' :: _ => string? cs
  | '\'' :: _ => string? cs
  | _ =>
    let part := cs.takeWhile isBareKeyChar
    if part.isEmpty then none else some (String.ofList part, cs.dropWhile isBareKeyChar)

/-- The most parts of a dotted key. -/
def maxKeyParts : Nat := 80

/-- The most arrays and tables in braces that stand in one another. -/
def maxDepth : Nat := 80

/-- A dotted key of a bounded number of parts, and what follows it and the blanks
after it. -/
def keyParts? : (most : Nat) → List Char → Option (List String × List Char)
  | 0, _ => none
  | most + 1, cs => do
    let (part, cs) ← keyPart? (skipBlanks cs)
    match skipBlanks cs with
    | '.' :: cs =>
      let (parts, cs) ← keyParts? most cs
      some (part :: parts, cs)
    | cs => some ([part], cs)

/-- A dotted key and what follows it and the blanks after it. -/
def key? (cs : List Char) : Option (List String × List Char) := keyParts? maxKeyParts cs

/-- Set a dotted key among the fields of a table in braces. The tables on the
way are those that dotted keys of the same braces have made: `made` lists
their paths. -/
def assignInline : (path : List String) → Value → (made : List (List String)) →
    List (String × Value) → Option (List (String × Value) × List (List String))
  | [], _, _, _ => none
  | [k], v, made, fields =>
    if fields.any (·.1 == k) then none else some (fields ++ [(k, v)], made)
  | k :: ks, v, made, fields =>
    let below := made.filterMap fun p => if p.head? == some k then some p.tail else none
    let beside := made.filter fun p => p.head? != some k
    match fields.find? (·.1 == k) with
    | none => do
      let (inner, below) ← assignInline ks v below []
      some (fields ++ [(k, .table inner)], beside ++ ([] :: below).map (k :: ·))
    | some (_, .table inner) =>
      if below.contains [] then do
        let (inner, below) ← assignInline ks v below inner
        some (fields.map fun f => if f.1 == k then (k, .table inner) else f,
          beside ++ below.map (k :: ·))
      else none
    | some _ => none

/-- Whether a word goes on after some blanks: a character follows them that is not the
beginning of a string. -/
def goesOn (cs : List Char) : Bool :=
  match skipBlanks cs with
  | c :: _ => isWordChar c && c != '"' && c != '\''
  | [] => false

/-- A word and what follows it. Blanks may stand inside it, as between a date and a
time. -/
def word : List Char → List Char × List Char
  | [] => ([], [])
  | c :: cs =>
    if isWordChar c || (isBlank c && goesOn cs) then
      let (w, rest) := word cs
      (c :: w, rest)
    else ([], c :: cs)

mutual

/-- A value and what follows it; `depth` is how deep it may still nest. -/
def value? : (fuel depth : Nat) → List Char → Option (Value × List Char)
  | 0, _, _ => none
  | fuel + 1, depth, cs =>
    match cs, depth with
    | '"' :: _, _ => (string? cs).map fun (s, cs) => (.string s, cs)
    | '\'' :: _, _ => (string? cs).map fun (s, cs) => (.string s, cs)
    | '[' :: _, 0 => none
    | '\x7b' :: _, 0 => none
    | '[' :: cs, depth + 1 => (items? fuel depth cs).map fun (vs, cs) => (.array vs, cs)
    | '\x7b' :: cs, depth + 1 =>
      (fields? fuel depth [] [] cs).map fun (fs, cs) => (.table fs, cs)
    | _, _ => do
      let (w, cs) := word cs
      some (← Value.ofWord? w, cs)

/-- The items of an array up to its closing bracket. -/
def items? : (fuel depth : Nat) → List Char → Option (List Value × List Char)
  | 0, _, _ => none
  | fuel + 1, depth, cs => do
    match ← skipGap? cs.length cs with
    | ']' :: cs => some ([], cs)
    | cs =>
      let (v, cs) ← value? fuel depth cs
      match ← skipGap? cs.length cs with
      | ',' :: cs =>
        let (vs, cs) ← items? fuel depth cs
        some (v :: vs, cs)
      | ']' :: cs => some ([v], cs)
      | _ => none

/-- The fields of a table in braces up to the closing one, added to those read
before. -/
def fields? : (fuel depth : Nat) → (made : List (List String)) → List (String × Value) →
    List Char → Option (List (String × Value) × List Char)
  | 0, _, _, _, _ => none
  | fuel + 1, depth, made, fields, cs => do
    match ← skipGap? cs.length cs with
    | '\x7d' :: cs => some (fields, cs)
    | cs =>
      let (path, cs) ← key? cs
      let '=' :: cs ← skipGap? cs.length cs | none
      let (v, cs) ← value? fuel depth (← skipGap? cs.length cs)
      let (fields, made) ← assignInline path v made fields
      match ← skipGap? cs.length cs with
      | ',' :: cs => fields? fuel depth made fields cs
      | '\x7d' :: cs => some (fields, cs)
      | _ => none

end

/-- A statement of a document. -/
inductive Statement where
  /-- The header of a table. -/
  | table (path : List String)
  /-- The header of one more table in an array. -/
  | arrayTable (path : List String)
  /-- An assignment. -/
  | assign (path : List String) (value : Value)

/-- The statement at the start of a line and what follows it. -/
def statement? (cs : List Char) : Option (Statement × List Char) := do
  match cs with
  | '[' :: '[' :: cs =>
    let (path, cs) ← key? cs
    match cs with
    | ']' :: ']' :: cs => some (.arrayTable path, cs)
    | _ => none
  | '[' :: cs =>
    let (path, cs) ← key? cs
    match cs with
    | ']' :: cs => some (.table path, cs)
    | _ => none
  | cs =>
    let (path, cs) ← key? cs
    let '=' :: cs := cs | none
    let (v, cs) ← value? (2 * cs.length + 1) maxDepth (skipBlanks cs)
    some (.assign path v, cs)

/-- The statements of a document. At most one stands on a line. -/
def statements? : (fuel : Nat) → List Char → Option (List Statement)
  | 0, cs => if cs.isEmpty then some [] else none
  | fuel + 1, cs => do
    match ← skipGap? cs.length cs with
    | [] => some []
    | cs =>
      let (s, cs) ← statement? cs
      match ← skipComment? (skipBlanks cs) with
      | [] => some [s]
      | '\n' :: cs => (statements? fuel cs).map (s :: ·)
      | '\r' :: '\n' :: cs => (statements? fuel cs).map (s :: ·)
      | _ => none

end ComponentEdit.Toml
