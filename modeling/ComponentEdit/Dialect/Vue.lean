import ComponentEdit.Document.Parser
import ComponentEdit.Markup.Render

/-!
# Vue components

A compiler for Vue reports at most one template and two scripts, and any number
of styles and custom blocks. `Vue.parser` turns its report into blocks, each
located by its descriptor; `Vue.writeBlock` and `Vue.writeComponent` write
blocks as markup.
-/

namespace ComponentEdit.Vue
set_option autoImplicit false

/-- The blocks of a component as the compiler reports them. -/
structure Report where
  template : Option Descriptor := none
  script : Option Descriptor := none
  scriptSetup : Option Descriptor := none
  styles : List Descriptor := []
  customBlocks : List Descriptor := []
deriving Inhabited

namespace Report

/-- Write a report. -/
def toJson (r : Report) : Json :=
  .object [("template", .ofOption Descriptor.toJson r.template),
    ("script", .ofOption Descriptor.toJson r.script),
    ("scriptSetup", .ofOption Descriptor.toJson r.scriptSetup),
    ("styles", .array (r.styles.map Descriptor.toJson)),
    ("customBlocks", .array (r.customBlocks.map Descriptor.toJson))]

/-- Read a report. -/
def ofJson? (v : Json) : Option Report := do
  let o ← v.object?
  let template ← JsonObject.field? o "template" Descriptor.ofJson?
  let script ← JsonObject.field? o "script" Descriptor.ofJson?
  let scriptSetup ← JsonObject.field? o "scriptSetup" Descriptor.ofJson?
  let styles ← JsonObject.fieldOr o "styles" [] (Json.list? Descriptor.ofJson?)
  let customBlocks ← JsonObject.fieldOr o "customBlocks" [] (Json.list? Descriptor.ofJson?)
  some { template, script, scriptSetup, styles, customBlocks }

/-- The blocks of a report: template, scripts, styles, custom blocks. -/
def blocks (r : Report) : List ParsedBlock :=
  let found (role : Role) (ds : List Descriptor) : List ParsedBlock :=
    ds.map fun descriptor => { role, descriptor }
  found .template r.template.toList ++ found .script (r.script.toList ++ r.scriptSetup.toList) ++
    found .style r.styles ++ found .custom r.customBlocks

end Report

/-- The parser that reads the report of a compiler. -/
def parser (compile : Text → Except Error (Option Report)) : Parser := fun source => do
  return (← compile source).map Report.blocks

/-- The tag of a block. A custom block is named by its kind, else by a truthy
attribute `type`. -/
def tagName (d : Descriptor) (role : Role) : Text :=
  match role, d.kind, (JsonObject.get? d.attrs "type").filter Json.isTruthy with
  | .custom, some kind, _ => kind.toList
  | .custom, none, some (.string s) => s.toList
  | .custom, none, some v => v.render
  | _, _, _ => role.tagName.toList

/-- A typed field as an attribute, if it is set. -/
def fieldAttribute (key : String) : Option String → Text
  | some value => Markup.writeAttribute key (.string value)
  | none => []

/-- A bare key, if it applies. -/
def flag (key : String) (applies : Bool) : Text := if applies then key.toList else []

/-- Write a block; nothing without one. The flags `scoped` and `setup` and the
fields `lang` and `src` are added to the attributes. -/
def writeBlock (block : Option Descriptor) (role : Role) : Text :=
  match block with
  | none => []
  | some d =>
    Markup.element (tagName d role)
      [flag "scoped" (d.isScoped == some true || d.hasAttr "scoped"),
        Markup.writeAttributes d.attrs ["setup", "scoped"],
        fieldAttribute "lang" d.lang,
        fieldAttribute "src" d.src,
        flag "setup" (d.hasAttr "setup")]
      d.content.toList

/-- Write a component: templates, scripts, styles, custom blocks. -/
def writeComponent (blocks : BlockSet) : Text :=
  Markup.component [.template, .script, .style, .custom] writeBlock blocks

end ComponentEdit.Vue
