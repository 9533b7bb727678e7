import ComponentEdit.Text.Hidden
import ComponentEdit.Text.Basic

/-!
# Quoted text on one line

`quoted` writes a text in double quotes so that it stays on one line and every
character of it can be seen. The quote, the backslash, tab, line feed, carriage
return and NUL are written with a backslash, and every other hidden character
by its number in hexadecimal.
-/

namespace ComponentEdit.Text
set_option autoImplicit false

/-- A character by its number. -/
def numbered (c : Char) : Text :=
  ['\\', 'u', '\x7b'] ++ Nat.toDigits 16 c.toNat ++ ['\x7d']

/-- A character inside a quoted text. -/
def shown (c : Char) : Text :=
  if c = '\x00' then ['\\', '0']
  else if c = '\t' then ['\\', 't']
  else if c = '\r' then ['\\', 'r']
  else if c = '\n' then ['\\', 'n']
  else if c = '\\' then ['\\', '\\']
  else if c = '"' then ['\\', '"']
  else if isHidden c then numbered c
  else [c]

/-- A text in quotes. -/
def quoted (t : Text) : Text := '"' :: t.flatMap shown ++ ['"']

end ComponentEdit.Text

namespace ComponentEdit

/-- A string in quotes. -/
def quotedString (s : String) : String := String.ofList (Text.quoted s.toList)

end ComponentEdit
