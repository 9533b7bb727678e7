import ComponentEdit.Json.Reader

/-!
# Strings in TOML

Strings stand in double quotes, with escapes, or in single quotes, as they are;
three quotes on both sides let a string go over several lines. Control
characters other than the tab have to be escaped.
-/

namespace ComponentEdit.Toml
set_option autoImplicit false

/-- Whether a character may stand as it is in a line of text. -/
def isPlain (c : Char) : Bool := c == '\t' || (decide (0x20 ≤ c.toNat) && c != '\x7f')

/-- A character by the given number of hexadecimal digits. -/
def numbered? (count : Nat) (cs : List Char) : Option (Char × List Char) := do
  let ds := cs.take count
  if ds.length != count then none
  let ns ← ds.mapM Json.hexValue?
  let n := ns.foldl (fun n d => n * 16 + d) 0
  if n.isValidChar then some (Char.ofNat n, cs.drop count) else none

/-- The character of an escape, without its backslash. -/
def escape? : List Char → Option (Char × List Char)
  | 'b' :: cs => some ('\x08', cs)
  | 't' :: cs => some ('\t', cs)
  | 'n' :: cs => some ('\n', cs)
  | 'f' :: cs => some ('\x0c', cs)
  | 'r' :: cs => some ('\r', cs)
  | 'e' :: cs => some ('\x1b', cs)
  | '"' :: cs => some ('"', cs)
  | '\\' :: cs => some ('\\', cs)
  | 'x' :: cs => numbered? 2 cs
  | 'u' :: cs => numbered? 4 cs
  | 'U' :: cs => numbered? 8 cs
  | _ => none

/-- The rest of a string on one line, after its opening quote. -/
def basic : (fuel : Nat) → List Char → Option (List Char × List Char)
  | 0, _ => none
  | _ + 1, [] => none
  | _ + 1, '"' :: cs => some ([], cs)
  | fuel + 1, '\\' :: cs => do
    let (c, cs) ← escape? cs
    let (s, cs) ← basic fuel cs
    some (c :: s, cs)
  | fuel + 1, c :: cs => do
    if !isPlain c then none
    let (s, cs) ← basic fuel cs
    some (c :: s, cs)

/-- The rest of a string without escapes on one line. -/
def literal : List Char → Option (List Char × List Char)
  | [] => none
  | '\'' :: cs => some ([], cs)
  | c :: cs => do
    if !isPlain c then none
    let (s, cs) ← literal cs
    some (c :: s, cs)

/-- Drop a line break right after the opening quotes. -/
def skipLineBreak : List Char → List Char
  | '\n' :: cs => cs
  | '\r' :: '\n' :: cs => cs
  | cs => cs

/-- Whether the rest of a line holds only blanks. -/
def endsLine (cs : List Char) : Bool :=
  match cs.dropWhile fun c => c == ' ' || c == '\t' with
  | '\n' :: _ => true
  | '\r' :: '\n' :: _ => true
  | _ => false

/-- Drop blanks and line breaks. -/
def skipSpace : List Char → List Char
  | ' ' :: cs => skipSpace cs
  | '\t' :: cs => skipSpace cs
  | '\n' :: cs => skipSpace cs
  | '\r' :: '\n' :: cs => skipSpace cs
  | cs => cs

/-- The end of a string over several lines: the quotes at the end beyond the
closing three, of which two may belong to the string. -/
def closing (quote : Char) (cs : List Char) : Option (List Char × List Char) :=
  let run := (cs.takeWhile (· == quote)).length
  if run < 3 then none
  else if run ≤ 5 then some (List.replicate (run - 3) quote, cs.drop run)
  else some ([quote, quote], cs.drop 5)

/-- The rest of a string over several lines; `escapes` tells whether a
backslash has a meaning in it. A backslash at the end of a line joins what
follows to it. -/
def multiline (quote : Char) (escapes : Bool) :
    (fuel : Nat) → List Char → Option (List Char × List Char)
  | 0, _ => none
  | _ + 1, [] => none
  | fuel + 1, c :: cs =>
    match closing quote (c :: cs) with
    | some done => some done
    | none =>
      if escapes && c == '\\' then
        if endsLine cs then multiline quote escapes fuel (skipSpace cs)
        else do
          let (c, cs) ← escape? cs
          let (s, cs) ← multiline quote escapes fuel cs
          some (c :: s, cs)
      else do
        let breaks := c == '\n' || (c == '\r' && cs.head? == some '\n')
        if !isPlain c && !breaks then none
        let (s, cs) ← multiline quote escapes fuel cs
        some (c :: s, cs)

/-- A string of any of the four kinds and what follows it. -/
def string? (cs : List Char) : Option (String × List Char) :=
  let text (r : Option (List Char × List Char)) : Option (String × List Char) :=
    r.map fun (s, cs) => (String.ofList s, cs)
  match cs with
  | '"' :: '"' :: '"' :: cs => text (multiline '"' true (cs.length + 1) (skipLineBreak cs))
  | '"' :: cs => text (basic (cs.length + 1) cs)
  | '\'' :: '\'' :: '\'' :: cs => text (multiline '\'' false (cs.length + 1) (skipLineBreak cs))
  | '\'' :: cs => text (literal cs)
  | _ => none

end ComponentEdit.Toml
