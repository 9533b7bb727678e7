import ComponentEdit.Document.Parser
import ComponentEdit.Markup.Render

/-!
# Astro components

A compiler for Astro reports a tree of nodes with their spans. `Astro.parser`
walks it depth first: frontmatter is a script inside its fences, a script or
style element is a block inside its tags, every other element or component is a
template, and a node that became a block is not entered. `Astro.writeBlock`
and `Astro.writeComponent` write blocks as markup.
-/

namespace ComponentEdit.Astro
set_option autoImplicit false

/-- The kinds of nodes that matter for blocks. -/
inductive NodeKind where
  | root
  | frontmatter
  | element
  | component
  | text
  | other
deriving DecidableEq, Repr, Inhabited

namespace NodeKind

/-- The name of a kind. -/
def name : NodeKind → String
  | .root => "root"
  | .frontmatter => "frontmatter"
  | .element => "element"
  | .component => "component"
  | .text => "text"
  | .other => "other"

/-- The kind of a name; unknown names stand for some other kind. -/
def ofName (s : String) : NodeKind :=
  ([.root, .frontmatter, .element, .component, .text].find? (·.name == s)).getD .other

/-- Read a kind. -/
def ofJson? : Json → Option NodeKind := Json.name? fun s => some (ofName s)

end NodeKind

/-- A place in the source. -/
structure Point where
  offset : Nat
  line : Nat := 0
  column : Nat := 0
deriving DecidableEq, Repr, Inhabited

namespace Point

/-- Write a point. -/
def toJson (p : Point) : Json :=
  .object [("offset", .nat p.offset), ("line", .nat p.line), ("column", .nat p.column)]

/-- Read a point. -/
def ofJson? (v : Json) : Option Point := do
  let o ← v.object?
  let offset ← JsonObject.field o "offset" Json.natural?
  let line ← JsonObject.fieldOr o "line" 0 Json.natural?
  let column ← JsonObject.fieldOr o "column" 0 Json.natural?
  some { offset, line, column }

end Point

/-- The two ends of a node; the second is missing for nodes left open. -/
structure Extent where
  start : Point
  stop : Option Point := none
deriving DecidableEq, Repr, Inhabited

namespace Extent

/-- Write an extent. -/
def toJson (e : Extent) : Json :=
  .object [("start", e.start.toJson), ("end", .ofOption Point.toJson e.stop)]

/-- Read an extent. -/
def ofJson? (v : Json) : Option Extent := do
  let o ← v.object?
  let start ← JsonObject.field o "start" Point.ofJson?
  let stop ← JsonObject.field? o "end" Point.ofJson?
  some { start, stop }

end Extent

/-- An attribute of a node. The kind `empty` marks one without a value. -/
structure Attribute where
  name : String
  value : String := ""
  kind : String := ""
deriving DecidableEq, Repr, Inhabited

namespace Attribute

/-- Write an attribute. -/
def toJson (a : Attribute) : Json :=
  .object [("name", .string a.name), ("value", .string a.value), ("kind", .string a.kind)]

/-- Read an attribute. -/
def ofJson? (v : Json) : Option Attribute := do
  let o ← v.object?
  let name ← JsonObject.field o "name" Json.string?
  let value ← JsonObject.fieldOr o "value" "" Json.string?
  let kind ← JsonObject.fieldOr o "kind" "" Json.string?
  some { name, value, kind }

/-- The value of an attribute in a descriptor. -/
def toValue (a : Attribute) : Json := if a.kind = "empty" then .bool true else .string a.value

end Attribute

/-- A node of the tree. -/
structure Node where
  kind : NodeKind
  name : String := ""
  extent : Option Extent := none
  attributes : List Attribute := []
  children : List Node := []
deriving Inhabited

namespace Node

/-- The node with the given span. -/
def withSpan (n : Node) (s : Span) : Node :=
  { n with extent := some { start := { offset := s.start }, stop := some { offset := s.stop } } }

/-- Add an attribute with a quoted value. -/
def withAttribute (n : Node) (name value : String) : Node :=
  { n with attributes := n.attributes ++ [{ name, value, kind := "quoted" }] }

/-- Add a child behind the others. -/
def withChild (n child : Node) : Node := { n with children := n.children ++ [child] }

/-- The span of a node, if both its ends are known. -/
def span? (n : Node) : Option Span := do
  let e ← n.extent
  let stop ← e.stop
  some ⟨e.start.offset, stop.offset⟩

/-- The attributes of a node for a descriptor. -/
def attrs (n : Node) : JsonObject :=
  JsonObject.insertAll [] (n.attributes.map fun a => (a.name, a.toValue))

mutual

/-- Write a node. -/
def toJson : Node → Json
  | ⟨kind, name, extent, attributes, children⟩ =>
    .object [("type", .string kind.name), ("name", .string name),
      ("position", .ofOption Extent.toJson extent),
      ("attributes", .array (attributes.map Attribute.toJson)),
      ("children", .array (listToJson children))]

/-- Write nodes. -/
def listToJson : List Node → List Json
  | [] => []
  | n :: ns => toJson n :: listToJson ns

end

/-- Read a node of a tree that is at most `depth` deep. -/
def read : (depth : Nat) → Json → Option Node
  | 0, _ => none
  | depth + 1, v => do
    let o ← v.object?
    let kind ← JsonObject.field o "type" NodeKind.ofJson?
    let name ← JsonObject.fieldOr o "name" "" Json.string?
    let extent ← JsonObject.field? o "position" Extent.ofJson?
    let attributes ← JsonObject.fieldOr o "attributes" [] (Json.list? Attribute.ofJson?)
    let children ← JsonObject.fieldOr o "children" [] (Json.list? (read depth))
    some { kind, name, extent, attributes, children }

/-- Read a node. -/
def ofJson? (v : Json) : Option Node := read v.depth v

end Node

/-- The line that opens and closes frontmatter. -/
def fence : Text := ['-', '-', '-']

/-- A span without its first `opening` and last `closing` bytes. -/
def inner? (span : Span) (opening closing : Nat) : Option Span :=
  if closing ≤ span.stop && span.start + opening ≤ span.stop - closing then
    some ⟨span.start + opening, span.stop - closing⟩
  else none

/-- The bytes from the start of a node to the end of its opening tag, which is
the first `>` after the first occurrence of `tag`. -/
def openingLength? (source : Text) (span : Span) (tag : Text) : Option Nat := do
  let target ← Text.slice? source span.start span.stop
  let tagStart ← Text.find? target tag
  let tagEnd ← Text.find? (Text.dropBytes target tagStart) ['>']
  some (tagStart + tagEnd + 1)

/-- The content of an element between its tags. -/
def elementInner? (source : Text) (span : Span) (name : String) : Option Span := do
  let opening ← openingLength? source span ('<' :: name.toList)
  inner? span opening (name.length + 3)

/-- The role and the span of the block that a node is, if it is one. -/
def Node.block? (n : Node) (source : Text) : Option (Role × Span) := do
  let span ← n.span?
  match n.kind with
  | .frontmatter => some (.script, ← inner? span fence.length fence.length)
  | .element =>
    if n.name = "script" then some (.script, ← elementInner? source span n.name)
    else if n.name = "style" then some (.style, ← elementInner? source span n.name)
    else some (.template, span)
  | .component => some (.template, span)
  | _ => none

/-- The descriptor of the block that a node is. -/
def Node.descriptor (n : Node) (source : Text) (span : Span) : Descriptor :=
  { Descriptor.ofContent (String.ofList ((Text.slice? source span.start span.stop).getD [])) with
    attrs := if n.kind = .frontmatter then JsonObject.insert n.attrs "frontmatter" (.bool true)
      else n.attrs
    extra := if n.name.isEmpty then [] else [("name", .string n.name)] }

mutual

/-- The blocks of a tree, depth first. -/
def Node.blocks (source : Text) : Node → List ParsedBlock
  | ⟨kind, name, extent, attributes, children⟩ =>
    let n : Node := ⟨kind, name, extent, attributes, children⟩
    match n.block? source with
    | some (role, span) => [{ role, descriptor := n.descriptor source span, span := some span }]
    | none => blocksOfAll source children

/-- The blocks of a row of trees. -/
def blocksOfAll (source : Text) : List Node → List ParsedBlock
  | [] => []
  | n :: ns => n.blocks source ++ blocksOfAll source ns

end

/-- The parser that reads the tree of a compiler. -/
def parser (compile : Text → Except Error (Option Node)) : Parser := fun source => do
  return (← compile source).map (·.blocks source)

/-- Write a block; nothing without one. A template is its content, and a script
with a truthy attribute `frontmatter` stands between fences. -/
def writeBlock (block : Option Descriptor) (role : Role) : Text :=
  match block with
  | none => []
  | some d =>
    if role = .template then d.content.toList
    else if role = .script && d.hasAttr "frontmatter" then
      fence ++ ['\n'] ++ d.content.toList ++ ['\n'] ++ fence
    else
      Markup.element role.tagName.toList [Markup.writeAttributes d.attrs ["setup", "scoped"]]
        d.content.toList

/-- Write a component: scripts, templates, styles. -/
def writeComponent (blocks : BlockSet) : Text :=
  Markup.component [.script, .template, .style] writeBlock blocks

end ComponentEdit.Astro
