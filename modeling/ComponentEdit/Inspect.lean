import ComponentEdit.Document.Basic

/-!
# Inspecting values

The one-line notation in which blocks and documents are shown to developers:
records with named fields in braces, lists in brackets, optional values as
`None` or `Some`, and all text quoted.
-/

namespace ComponentEdit.Inspect
set_option autoImplicit false

/-- An opening brace. -/
def opening : String := "\x7b"

/-- A closing brace. -/
def closing : String := "\x7d"

/-- Parts with commas between them. -/
def separated (parts : List String) : String := ", ".intercalate parts

/-- A record of all its fields. -/
def record (name : String) (fields : List (String × String)) : String :=
  name ++ " " ++ opening ++ " " ++ separated (fields.map fun f => f.1 ++ ": " ++ f.2) ++
    " " ++ closing

/-- A record of some of its fields. -/
def partialRecord (name : String) (fields : List (String × String)) : String :=
  name ++ " " ++ opening ++ " " ++ separated (fields.map fun f => f.1 ++ ": " ++ f.2) ++
    ", .. " ++ closing

/-- A list. -/
def list (items : List String) : String := "[" ++ separated items ++ "]"

/-- An optional value. -/
def option {α : Type} (write : α → String) : Option α → String
  | none => "None"
  | some a => "Some(" ++ write a ++ ")"

/-- A truth value. -/
def bool (b : Bool) : String := if b then "true" else "false"

/-- A text. -/
def text (t : Text) : String := String.ofList (Text.quoted t)

/-- A span. -/
def span (s : Span) : String := toString s.start ++ ".." ++ toString s.stop

/-- A position. -/
def position (p : Position) : String :=
  record "Position" [("offset", toString p.offset), ("line", toString p.line),
    ("column", toString p.column)]

/-- A location. -/
def location (l : Location) : String :=
  record "SourceLocation" [("start", position l.start), ("end", position l.stop),
    ("source", text l.source)]

/-- A placement. -/
def placement : Placement → String
  | .location l => "Location(" ++ location l ++ ")"
  | .offsets s => record "Offsets" [("start", toString s.start), ("end", toString s.stop)]

mutual

/-- A JSON value. -/
def json : Json → String
  | .null => "Null"
  | .bool b => "Bool(" ++ bool b ++ ")"
  | .number n => "Number(" ++ n.text ++ ")"
  | .string s => "String(" ++ quotedString s ++ ")"
  | .array items => "Array " ++ list (jsonItems items)
  | .object fields => "Object " ++ opening ++ separated (jsonFields fields) ++ closing

/-- The items of an array. -/
def jsonItems : List Json → List String
  | [] => []
  | v :: vs => json v :: jsonItems vs

/-- The fields of an object. -/
def jsonFields : List (String × Json) → List String
  | [] => []
  | (k, v) :: fs => (quotedString k ++ ": " ++ json v) :: jsonFields fs

end

/-- A map from keys to JSON values. -/
def fields (o : JsonObject) : String := opening ++ separated (jsonFields o) ++ closing

/-- A descriptor. -/
def descriptor (d : Descriptor) : String :=
  record "BlockDescriptor" [("kind", option quotedString d.kind), ("attrs", fields d.attrs),
    ("lang", option quotedString d.lang), ("scoped", option bool d.isScoped),
    ("src", option quotedString d.src), ("content", quotedString d.content),
    ("loc", option placement d.placement), ("extra", fields d.extra)]

/-- A block without its source; the replaced operations are sorted by name. -/
def block (b : Block) : String :=
  let names := (b.replacements.map (·.1.name)).mergeSort fun s t => decide (s ≤ t)
  partialRecord "MagicBlock" [("descriptor", descriptor b.descriptor), ("range", span b.span),
    ("snippet", text b.render), ("replaced", list (names.map quotedString))]

/-- Options of source maps. -/
def sourceMapOptions (o : MapOptions) : String :=
  record "SourceMapOptions" [("file", option quotedString o.file),
    ("source", option quotedString o.source), ("include_content", bool o.includeContent),
    ("hires", bool o.hires)]

/-- A configuration. -/
def config (c : Config) : String :=
  record "SfcConfig" [("filename", option quotedString c.filename), ("silent", bool c.silent),
    ("sourcemap", sourceMapOptions c.sourceMap)]

/-- A document and its blocks. -/
def document (d : Document) : String :=
  let blocks (bs : List Block) : String := list (bs.map block)
  partialRecord "MagicSfc" [("source", text d.initial), ("config", config d.config),
    ("has_parser", bool d.parser.isSome), ("templates", blocks d.blocks.templates),
    ("scripts", blocks d.blocks.scripts), ("styles", blocks d.blocks.styles),
    ("customs", blocks d.blocks.customs)]

end ComponentEdit.Inspect
