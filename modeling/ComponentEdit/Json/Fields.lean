import ComponentEdit.Json.Writer
import ComponentEdit.Text.Quoted

/-!
# Reading typed values out of JSON

A reader for a type is a function `Json → Option α` that answers nothing when
the value has another shape. `field`, `field?` and `fieldOr` apply a reader to
a key of an object: the first needs the key, the second takes a missing key and
null for "unset", the third has a default for a missing key but lets null reach
the reader. `Json.record?` also takes the values of a record as an array, without the keys.
`Json.describe` names a value in the report of a wrong shape.
-/

namespace ComponentEdit
set_option autoImplicit false

namespace Json

/-- A string. -/
def string? : Json → Option String
  | .string s => some s
  | _ => none

/-- A string, as a text. -/
def text? (v : Json) : Option (List Char) := (string? v).map String.toList

/-- True or false. -/
def bool? : Json → Option Bool
  | .bool b => some b
  | _ => none

/-- A whole number that is not negative. -/
def natural? : Json → Option Nat
  | .number (.whole (.ofNat n)) => some n
  | _ => none

/-- An object. -/
def object? : Json → Option JsonObject
  | .object fields => some fields
  | _ => none

/-- The fields of a record with known keys: those of an object, or the items of an array that holds
one value for each key, in the order of the keys. -/
def record? (keys : List String) : Json → Option JsonObject
  | .object fields => some fields
  | .array items => if items.length = keys.length then some (keys.zip items) else none
  | _ => none

/-- An array. -/
def array? : Json → Option (List Json)
  | .array items => some items
  | _ => none

/-- Null stands for nothing. -/
def nullable {α : Type} (read : Json → Option α) : Json → Option (Option α)
  | .null => some none
  | v => (read v).map some

/-- An array whose items all have a shape. -/
def list? {α : Type} (read : Json → Option α) (v : Json) : Option (List α) := do
  (← array? v).mapM read

/-- One of a set of names: a string, or an object with the name for its only
key and null for its value. -/
def name? {α : Type} (ofName : String → Option α) : Json → Option α
  | .string s => ofName s
  | .object [(s, .null)] => ofName s
  | _ => none

/-- What a value is, for the report that something else was expected. -/
def describe : Json → String
  | .null => "null"
  | .bool b => "boolean `" ++ (if b then "true" else "false") ++ "`"
  | .number (.whole n) => "integer `" ++ toString n ++ "`"
  | .number (.float x) => "floating point `" ++ x.text ++ "`"
  | .string s => "string " ++ quotedString s
  | .array _ => "sequence"
  | .object _ => "map"

end Json

namespace JsonObject

/-- A field that has to be there. -/
def field {α : Type} (o : JsonObject) (key : String) (read : Json → Option α) : Option α := do
  read (← get? o key)

/-- A field that may be missing or null. -/
def field? {α : Type} (o : JsonObject) (key : String) (read : Json → Option α) :
    Option (Option α) :=
  match get? o key with
  | none => some none
  | some v => Json.nullable read v

/-- A field with a default for a missing key. -/
def fieldOr {α : Type} (o : JsonObject) (key : String) (default : α) (read : Json → Option α) :
    Option α :=
  match get? o key with
  | none => some default
  | some v => read v

/-- A field that is written only when it is set. -/
def whenSet {α : Type} (key : String) (value : Option α) (write : α → Json) : JsonObject :=
  match value with
  | some a => [(key, write a)]
  | none => []

end JsonObject

end ComponentEdit
