import ComponentEdit.Descriptor.Placement
import ComponentEdit.Descriptor.Role

/-!
# Block descriptors

What a parser says about a block. The fields that all dialects share are typed;
every other key that was reported stays in `extra`. `get?` and `set` reach all
of them by name as JSON. A typed field accepts values of its own shape only;
null unsets it where it may be unset.
-/

namespace ComponentEdit
set_option autoImplicit false

/-- What is known about a block. -/
structure Descriptor where
  /-- The name of a custom block. -/
  kind : Option String := none
  /-- Attributes in the order of the tag; true stands for one without a value. -/
  attrs : JsonObject := []
  lang : Option String := none
  isScoped : Option Bool := none
  src : Option String := none
  content : String := ""
  placement : Option Placement := none
  /-- Everything else, in the order it was reported. -/
  extra : JsonObject := []
deriving Inhabited

namespace Descriptor

/-- The keys of the typed fields. -/
def typedKeys : List String := ["type", "attrs", "lang", "scoped", "src", "content", "loc"]

/-- A block of which only the content is known. -/
def ofContent (content : String) : Descriptor := { content }

/-- Name a custom block. -/
def withKind (d : Descriptor) (kind : String) : Descriptor := { d with kind := some kind }

/-- Add an attribute, or overwrite one in its place. -/
def withAttr (d : Descriptor) (key : String) (value : Json) : Descriptor :=
  { d with attrs := JsonObject.insert d.attrs key value }

/-- Say what language the content is in. -/
def withLang (d : Descriptor) (lang : String) : Descriptor := { d with lang := some lang }

/-- Say whether a style is scoped. -/
def withScoped (d : Descriptor) (isScoped : Bool) : Descriptor := { d with isScoped := some isScoped }

/-- Say where the content is taken from. -/
def withSrc (d : Descriptor) (src : String) : Descriptor := { d with src := some src }

/-- Say where the block sits. -/
def withPlacement (d : Descriptor) (p : Placement) : Descriptor := { d with placement := some p }

/-- Whether an attribute is present with a truthy value. -/
def hasAttr (d : Descriptor) (key : String) : Bool :=
  (JsonObject.get? d.attrs key).any Json.isTruthy

/-- The value of a field, if it is set. -/
def get? (d : Descriptor) (key : String) : Option Json :=
  if key = "type" then d.kind.map .string
  else if key = "attrs" then some (.object d.attrs)
  else if key = "lang" then d.lang.map .string
  else if key = "scoped" then d.isScoped.map .bool
  else if key = "src" then d.src.map .string
  else if key = "content" then some (.string d.content)
  else if key = "loc" then d.placement.map Placement.toJson
  else JsonObject.get? d.extra key

/-- Read a value for a typed field, or report its shape. -/
def typed {α : Type} (key expected : String) (read : Json → Option α) (v : Json) :
    Except Error α :=
  match read v with
  | some a => .ok a
  | none => .error
      (.invalidProperty key ("invalid type: " ++ v.describe ++ ", expected " ++ expected))

/-- Read a value for the field that holds the placement. -/
def typedPlacement (v : Json) : Except Error (Option Placement) :=
  match Json.nullable Placement.ofJson? v with
  | some p => .ok p
  | none => .error
      (.invalidProperty "loc" "data did not match any variant of untagged enum BlockLoc")

/-- Write a field. A key that is not typed is set in `extra` and never refused. -/
def set (d : Descriptor) (key : String) (v : Json) : Except Error Descriptor :=
  if key = "type" then do
    return { d with kind := ← typed key "a string" (Json.nullable Json.string?) v }
  else if key = "attrs" then do
    return { d with attrs := ← typed key "a map" Json.object? v }
  else if key = "lang" then do
    return { d with lang := ← typed key "a string" (Json.nullable Json.string?) v }
  else if key = "scoped" then do
    return { d with isScoped := ← typed key "a boolean" (Json.nullable Json.bool?) v }
  else if key = "src" then do
    return { d with src := ← typed key "a string" (Json.nullable Json.string?) v }
  else if key = "content" then do
    return { d with content := ← typed key "a string" Json.string? v }
  else if key = "loc" then do
    return { d with placement := ← typedPlacement v }
  else .ok { d with extra := JsonObject.insert d.extra key v }

/-- The fields of a descriptor: unset ones and empty attributes are left out,
and `extra` follows the typed ones. -/
def toFields (d : Descriptor) : JsonObject :=
  JsonObject.whenSet "type" d.kind .string ++
  (if d.attrs.isEmpty then [] else [("attrs", .object d.attrs)]) ++
  JsonObject.whenSet "lang" d.lang .string ++
  JsonObject.whenSet "scoped" d.isScoped .bool ++
  JsonObject.whenSet "src" d.src .string ++
  [("content", .string d.content)] ++
  JsonObject.whenSet "loc" d.placement Placement.toJson ++
  d.extra

/-- Write a descriptor. -/
def toJson (d : Descriptor) : Json := .object d.toFields

/-- Read a descriptor. Keys that are not typed are kept in their order. -/
def ofJson? (v : Json) : Option Descriptor := do
  let o ← v.object?
  let kind ← JsonObject.field? o "type" Json.string?
  let attrs ← JsonObject.fieldOr o "attrs" [] Json.object?
  let lang ← JsonObject.field? o "lang" Json.string?
  let isScoped ← JsonObject.field? o "scoped" Json.bool?
  let src ← JsonObject.field? o "src" Json.string?
  let content ← JsonObject.fieldOr o "content" "" Json.string?
  let placement ← JsonObject.field? o "loc" Placement.ofJson?
  let extra := o.filter fun f => !typedKeys.contains f.1
  some { kind, attrs, lang, isScoped, src, content, placement, extra }

end Descriptor

/-- Descriptors grouped by role. -/
structure BlockSet where
  templates : List Descriptor := []
  scripts : List Descriptor := []
  styles : List Descriptor := []
  customs : List Descriptor := []
deriving Inhabited

namespace BlockSet

/-- The descriptors of a role. -/
def get (s : BlockSet) : Role → List Descriptor
  | .template => s.templates
  | .script => s.scripts
  | .style => s.styles
  | .custom => s.customs

/-- Write a set of blocks. -/
def toJson (s : BlockSet) : Json :=
  let list (ds : List Descriptor) : Json := .array (ds.map Descriptor.toJson)
  .object [("templates", list s.templates), ("scripts", list s.scripts),
    ("styles", list s.styles), ("customs", list s.customs)]

/-- Read a set of blocks. -/
def ofJson? (v : Json) : Option BlockSet := do
  let o ← v.object?
  let list (key : String) := JsonObject.fieldOr o key [] (Json.list? Descriptor.ofJson?)
  some ⟨← list "templates", ← list "scripts", ← list "styles", ← list "customs"⟩

end BlockSet

end ComponentEdit
