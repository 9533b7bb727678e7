import ComponentEdit.Document.Parser
import ComponentEdit.Markup.Render

/-!
# Svelte components

A preprocessor for Svelte reports the markup and each script and style as text
without a place. `Svelte.parser` puts each piece at the first occurrence of its
content: markup in the document, scripts and styles in the markup they were
reported with. `Svelte.writeBlock` and `Svelte.writeComponent` write blocks
as markup.
-/

namespace ComponentEdit.Svelte
set_option autoImplicit false

/-- The hook of the preprocessor that reported a piece. -/
inductive Hook where
  | markup
  | script
  | style
deriving DecidableEq, Repr, Inhabited

namespace Hook

/-- All hooks. -/
def all : List Hook := [.markup, .script, .style]

/-- The name of a hook. -/
def name : Hook → String
  | .markup => "markup"
  | .script => "script"
  | .style => "style"

/-- The role of the blocks that a hook reports. -/
def role : Hook → Role
  | .markup => .template
  | .script => .script
  | .style => .style

/-- Read a hook. -/
def ofJson? : Json → Option Hook := Json.name? fun s => all.find? (·.name == s)

end Hook

/-- A piece of a component that the preprocessor reported. -/
structure Piece where
  hook : Hook
  content : String
  attributes : JsonObject := []
  /-- The markup that a script or style was found in. -/
  markup : Option String := none
  filename : Option String := none
deriving Inhabited

namespace Piece

/-- Write a piece. -/
def toJson (p : Piece) : Json :=
  .object ([("hook", .string p.hook.name), ("content", .string p.content)] ++
    (if p.attributes.isEmpty then [] else [("attributes", .object p.attributes)]) ++
    JsonObject.whenSet "markup" p.markup .string ++
    JsonObject.whenSet "filename" p.filename .string)

/-- Read a piece. -/
def ofJson? (v : Json) : Option Piece := do
  let o ← v.object?
  let hook ← JsonObject.field o "hook" Hook.ofJson?
  let content ← JsonObject.field o "content" Json.string?
  let attributes ← JsonObject.fieldOr o "attributes" [] Json.object?
  let markup ← JsonObject.field? o "markup" Json.string?
  let filename ← JsonObject.field? o "filename" Json.string?
  some { hook, content, attributes, markup, filename }

/-- Add an attribute, or overwrite one in its place. -/
def withAttribute (p : Piece) (key : String) (value : Json) : Piece :=
  { p with attributes := JsonObject.insert p.attributes key value }

/-- The text in which a piece of the document `source` is looked for. -/
def haystack (p : Piece) (source : Text) : Text :=
  match p.hook, p.markup with
  | .markup, _ => source
  | _, some markup => markup.toList
  | _, none => source

/-- The block of a piece, if its content is found. The piece itself is kept in
the descriptor under `parsed`. -/
def block? (p : Piece) (source : Text) : Option ParsedBlock :=
  match Location.findAll (p.haystack source) p.content.toList with
  | [] => none
  | l :: _ =>
    some {
      role := p.hook.role
      descriptor := { Descriptor.ofContent p.content with
        attrs := if p.hook = .markup then [] else p.attributes
        placement := some (.location l)
        extra := [("parsed", p.toJson)] } }

end Piece

/-- The parser that locates the pieces of a preprocessor. Pieces that are not
found are left out. -/
def parser (preprocess : Text → Except Error (List Piece)) : Parser := fun source => do
  return some ((← preprocess source).filterMap (·.block? source))

/-- Write a block; nothing without one. A template is its content. -/
def writeBlock (block : Option Descriptor) (role : Role) : Text :=
  match block, role with
  | none, _ => []
  | some d, .template => d.content.toList
  | some d, r => Markup.element r.tagName.toList [] d.content.toList

/-- Write a component: templates, scripts, styles. -/
def writeComponent (blocks : BlockSet) : Text :=
  Markup.component [.template, .script, .style] writeBlock blocks

end ComponentEdit.Svelte
