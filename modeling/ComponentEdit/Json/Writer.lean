import ComponentEdit.Json.Basic
import ComponentEdit.Number.Shortest

/-!
# Writing JSON

The compact form: no blanks, keys in their order. In strings the quote, the
backslash and the characters below U+0020 are escaped, five of the latter by a
letter and the others by four hexadecimal digits; all else stands as it is.
-/

namespace ComponentEdit
set_option autoImplicit false

namespace JsonNumber

/-- The text of a number. -/
def text : JsonNumber → String
  | .whole n => toString n
  | .float x => x.text

end JsonNumber

namespace Json

/-- A hexadecimal digit in lower case. -/
def hexDigit (n : Nat) : Char := Nat.digitChar (n % 16)

/-- A character inside a quoted string. -/
def escapeChar (c : Char) : List Char :=
  if c = '"' then ['\\', '"']
  else if c = '\\' then ['\\', '\\']
  else if c = '\x08' then ['\\', 'b']
  else if c = '\x0c' then ['\\', 'f']
  else if c = '\n' then ['\\', 'n']
  else if c = '\r' then ['\\', 'r']
  else if c = '\t' then ['\\', 't']
  else if c.toNat < 0x20 then
    ['\\', 'u', '0', '0', hexDigit (c.toNat / 16), hexDigit c.toNat]
  else [c]

/-- A string in quotes. -/
def quote (s : String) : List Char := '"' :: s.toList.flatMap escapeChar ++ ['"']

/-- Parts with commas between them. -/
def commaSeparated : List (List Char) → List Char
  | [] => []
  | [p] => p
  | p :: ps => p ++ ',' :: commaSeparated ps

mutual

/-- The compact form of a value. -/
def render : Json → List Char
  | .null => ['n', 'u', 'l', 'l']
  | .bool true => ['t', 'r', 'u', 'e']
  | .bool false => ['f', 'a', 'l', 's', 'e']
  | .number n => n.text.toList
  | .string s => quote s
  | .array items => '[' :: commaSeparated (renderItems items) ++ [']']
  | .object fields => '{' :: commaSeparated (renderFields fields) ++ ['}']

/-- The items of an array, each in its compact form. -/
def renderItems : List Json → List (List Char)
  | [] => []
  | v :: vs => render v :: renderItems vs

/-- The fields of an object, each as key, colon and value. -/
def renderFields : List (String × Json) → List (List Char)
  | [] => []
  | (k, v) :: fs => (quote k ++ ':' :: render v) :: renderFields fs

end

/-- The compact form as a string. -/
def compress (v : Json) : String := String.ofList v.render

end Json

end ComponentEdit
