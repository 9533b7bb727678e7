import ComponentEdit.Block.Basic
import ComponentEdit.Config.Basic
import ComponentEdit.Document.Parser

/-!
# Documents

A document is a component whose blocks can be edited in place. It owns the
buffer of the whole text. `Document.parse` runs the parser over the current
text and makes a block of everything it reports; if that fails anywhere, or
the parser reports nothing, the document stays as it was.
-/

namespace ComponentEdit
set_option autoImplicit false

/-- Blocks grouped by role. -/
structure RoleLists where
  templates : List Block := []
  scripts : List Block := []
  styles : List Block := []
  customs : List Block := []

namespace RoleLists

/-- The blocks of a role. -/
def get (l : RoleLists) : Role → List Block
  | .template => l.templates
  | .script => l.scripts
  | .style => l.styles
  | .custom => l.customs

/-- Put other blocks in place of those of a role. -/
def put (l : RoleLists) (r : Role) (bs : List Block) : RoleLists :=
  match r with
  | .template => { l with templates := bs }
  | .script => { l with scripts := bs }
  | .style => { l with styles := bs }
  | .custom => { l with customs := bs }

theorem get_put (l : RoleLists) (r r' : Role) (bs : List Block) :
    (l.put r bs).get r' = if r' = r then bs else l.get r' := by
  cases r <;> cases r' <;> rfl

theorem put_get (l : RoleLists) (r : Role) : l.put r (l.get r) = l := by cases r <;> rfl

/-- Group blocks by role, each role in the given order. -/
def ofList (bs : List (Role × Block)) : RoleLists :=
  bs.foldl (fun l b => l.put b.1 (l.get b.1 ++ [b.2])) {}

end RoleLists

/-- A component and its blocks. -/
structure Document where
  /-- The text that the document was made from. -/
  initial : Text
  config : Config
  source : Source
  parser : Option Parser := none
  blocks : RoleLists := {}

namespace Document

/-- The document of a text. -/
def ofText (t : Text) (config : Config) : Document :=
  { initial := t, config
    source := { buffer := { Buffer.ofText t with filename := config.filename } } }

/-- The document of a buffer that may be edited already. Its current text
counts as what the document was made from. -/
def ofBuffer (b : Buffer) (config : Config) : Document :=
  { initial := b.render, config, source := { buffer := b } }

/-- The same document with a parser. -/
def withParser (d : Document) (p : Parser) : Document := { d with parser := some p }

/-- The current text. -/
def text (d : Document) : Except Error Text := d.source.text

/-- The current text, or the initial one while the buffer is being written. -/
def display (d : Document) : Text :=
  match d.text with
  | .ok t => t
  | .error _ => d.initial

/-- The block of something that a parser reported. -/
def resolveBlock (s : Source) (p : ParsedBlock) : Except Error (Role × Block) := do
  return (p.role, ← Block.create s p.descriptor p.span)

/-- The blocks that a parser reports for the current text, or nothing if the
parser reports nothing or there is none and none is needed. -/
def parsed (d : Document) : Except Error (Option (List (Role × Block))) :=
  match d.parser with
  | none => if d.config.silent then .ok none else .error .missingParser
  | some parser => do
    match ← parser (← d.text) with
    | none => .ok none
    | some found => do return some (← found.mapM (resolveBlock d.source))

/-- Make the blocks anew from what the parser reports. -/
def parse (d : Document) : Attempt Document :=
  match d.parsed with
  | .error e => .refused d e
  | .ok none => .done d
  | .ok (some bs) => .done { d with blocks := .ofList bs }

/-- The source map of the current text. Missing options are those of the
configuration, and a missing source name is the configured file name. -/
def sourceMap (d : Document) (options : Option MapOptions) : Except Error SourceMap := do
  let options := options.getD d.config.sourceMap
  let options := { options with source := options.source <|> d.config.filename }
  return (← d.source.read).sourceMap options

/-- A text and the map back to what it was made from. -/
structure Transformed where
  code : Text
  map : SourceMap

/-- The current text and its source map. -/
def transform (d : Document) : Except Error Transformed := do
  return { code := ← d.text, map := ← d.sourceMap none }

end Document

end ComponentEdit
