import ComponentEdit.Number.Binary64

/-!
# JSON values

A JSON value whose objects keep the order in which their keys were written.
`JsonObject.insert` overwrites a key in its place and puts a new one at the
end, so every key appears once in an object built with it. Whole numbers and
floating-point numbers are kept apart, because they are written differently.
-/

namespace ComponentEdit
set_option autoImplicit false

/-- A JSON number. -/
inductive JsonNumber where
  | whole (n : Int)
  | float (x : Binary64)
deriving DecidableEq, Repr, Inhabited

/-- A JSON value. -/
inductive Json where
  | null
  | bool (b : Bool)
  | number (n : JsonNumber)
  | string (s : String)
  | array (items : List Json)
  | object (fields : List (String × Json))
deriving Inhabited

/-- The fields of a JSON object, in order. -/
abbrev JsonObject := List (String × Json)

namespace JsonObject

/-- The value of a key. -/
def get? (o : JsonObject) (key : String) : Option Json :=
  (o.find? (·.1 == key)).map (·.2)

/-- Whether a key is present. -/
def hasKey (o : JsonObject) (key : String) : Bool := o.any (·.1 == key)

/-- Set a key: in its place when it is present, else at the end. -/
def insert (o : JsonObject) (key : String) (value : Json) : JsonObject :=
  if hasKey o key then o.map fun f => if f.1 == key then (key, value) else f
  else o ++ [(key, value)]

/-- Insert fields one after another. -/
def insertAll (o : JsonObject) (fields : List (String × Json)) : JsonObject :=
  fields.foldl (fun o f => insert o f.1 f.2) o

end JsonObject

namespace Json

/-- A whole number. -/
def nat (n : Nat) : Json := .number (.whole n)

/-- The characters of a text as a string. -/
def ofText (t : List Char) : Json := .string (String.ofList t)

/-- A present value, or null. -/
def ofOption {α : Type} (f : α → Json) : Option α → Json
  | some a => f a
  | none => .null

/-- Whether an attribute value counts as set: not null, false, zero or the
empty string. -/
def isTruthy : Json → Bool
  | .null => false
  | .bool b => b
  | .number (.whole n) => n != 0
  | .number (.float x) => x.isNonzero
  | .string s => s != ""
  | .array _ => true
  | .object _ => true

mutual

/-- How deep arrays and objects are nested, counting the value itself. -/
def depth : Json → Nat
  | .array items => depthOfItems items + 1
  | .object fields => depthOfFields fields + 1
  | _ => 1

/-- The depth of the deepest item. -/
def depthOfItems : List Json → Nat
  | [] => 0
  | v :: vs => max (depth v) (depthOfItems vs)

/-- The depth of the deepest field. -/
def depthOfFields : List (String × Json) → Nat
  | [] => 0
  | (_, v) :: fs => max (depth v) (depthOfFields fs)

end

end Json

end ComponentEdit
