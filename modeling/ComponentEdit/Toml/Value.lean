/-!
# TOML values

A value of a TOML document. Tables keep the order of their keys. Only the kinds
of number and date are told apart; floats, dates and times keep their text. A
word that is written like a number and denotes none is a value too: it is
refused by those who read it, and does no harm where nobody does.
-/

namespace ComponentEdit.Toml
set_option autoImplicit false

/-- A value of a TOML document. -/
inductive Value where
  | string (s : String)
  | integer (n : Int)
  | float (text : String)
  /-- A word written like a number that denotes none. -/
  | malformed (text : String)
  | boolean (b : Bool)
  | datetime (text : String)
  | array (items : List Value)
  | table (fields : List (String × Value))
deriving Inhabited

mutual

/-- Whether a value can be read as a whole: nothing in it is malformed. -/
def Value.isReadable : Value → Bool
  | .malformed _ => false
  | .array items => allReadable items
  | .table fields => fieldsReadable fields
  | _ => true

/-- Whether all of some values can be read. -/
def allReadable : List Value → Bool
  | [] => true
  | v :: vs => v.isReadable && allReadable vs

/-- Whether the values of all fields can be read. -/
def fieldsReadable : List (String × Value) → Bool
  | [] => true
  | (_, v) :: fs => v.isReadable && fieldsReadable fs

end

end ComponentEdit.Toml
