import ComponentEdit.Json.Fields

/-!
# Block roles

The part that a block plays in a component. The name of a role is also the tag
that a block of that role is written with.
-/

namespace ComponentEdit
set_option autoImplicit false

/-- The part that a block plays in a component. -/
inductive Role where
  | template
  | script
  | style
  | custom
deriving DecidableEq, Repr, Inhabited

namespace Role

/-- All roles. -/
def all : List Role := [.template, .script, .style, .custom]

/-- The name of a role. -/
def tagName : Role → String
  | .template => "template"
  | .script => "script"
  | .style => "style"
  | .custom => "custom"

/-- The role of a name. -/
def ofName? (name : String) : Option Role := all.find? (·.tagName == name)

/-- Write a role. -/
def toJson (r : Role) : Json := .string r.tagName

/-- Read a role. -/
def ofJson? : Json → Option Role := Json.name? ofName?

end Role

end ComponentEdit
