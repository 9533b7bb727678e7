import ComponentEdit.Json.Fields
import ComponentEdit.SourceMap.Token
import ComponentEdit.SourceMap.Vlq

/-!
# Source maps

A `SourceMap` is the list of tokens of a rendered text with the name and, if
wanted, the text of its one source. Its JSON form is version 3 of the format:
tokens are written line by line, each number as the difference to the one
before it in the same place, with generated columns counted anew on each line.
-/

namespace ComponentEdit
set_option autoImplicit false

/-- What goes into a source map. -/
structure MapOptions where
  /-- The name of the generated file. -/
  file : Option String := none
  /-- The name of the source. -/
  source : Option String := none
  /-- Embed the text of the source. -/
  includeContent : Bool := true
  /-- Map every character and not only the first one of each line. -/
  hires : Bool := false
deriving DecidableEq, Repr, Inhabited

/-- A source map with one source. -/
structure SourceMap where
  file : Option String
  source : String
  content : Option Text
  tokens : List Token
deriving DecidableEq, Repr

namespace SourceMap

/-- The members of a list, each once, by first appearance. -/
def distinct {α : Type} [BEq α] (as : List α) : List α :=
  as.foldl (fun seen a => if seen.contains a then seen else seen ++ [a]) []

/-- The names that tokens carry, each once. -/
def names (m : SourceMap) : List Text := distinct (m.tokens.filterMap (·.name))

/-- The numbers of the last segment, to which the next one refers. -/
structure Cursor where
  generated : Caret := .origin
  source : Caret := .origin
  name : Nat := 0

/-- The difference of two numbers in base 64. -/
def delta (now last : Nat) : List Char := Vlq.encode ((now : Int) - (last : Int))

/-- A segment without its separator: generated column, source, source line,
source column and, if there is one, name. -/
def segment (names : List Text) (last : Cursor) (t : Token) : List Char :=
  delta t.generated.column last.generated.column ++ delta 0 0 ++
    delta t.source.line last.source.line ++ delta t.source.column last.source.column ++
    match t.name with
    | some n => delta (names.idxOf n) last.name
    | none => []

/-- The segments of tokens in order. A new line is reached by one semicolon
for each line passed; on the same line a comma stands between segments. -/
def segments (names : List Text) : (isFirst : Bool) → Cursor → List Token → List Char
  | _, _, [] => []
  | isFirst, last, t :: ts =>
    let skipped := t.generated.line - last.generated.line
    let separator := if 0 < skipped then List.replicate skipped ';'
      else if isFirst then [] else [',']
    let last := if 0 < skipped then { last with generated := ⟨t.generated.line, 0⟩ } else last
    let next : Cursor :=
      ⟨t.generated, t.source, match t.name with
        | some n => names.idxOf n
        | none => last.name⟩
    separator ++ segment names last t ++ segments names false next ts

/-- The tokens of a map in the written form. -/
def mappings (m : SourceMap) : List Char := segments m.names true {} m.tokens

/-- The JSON form of a map. -/
def toJson (m : SourceMap) : Json :=
  .object ([("version", .nat 3)] ++
    JsonObject.whenSet "file" m.file .string ++
    [("sources", .array [.string m.source])] ++
    JsonObject.whenSet "sourcesContent" m.content (fun t => .array [.ofText t]) ++
    [("names", .array (m.names.map .ofText)), ("mappings", .ofText m.mappings)])

/-- The JSON form of a map as a text. -/
def render (m : SourceMap) : Text := m.toJson.render

end SourceMap

namespace Buffer

/-- The source map of the rendered text. The source is named by the options,
else by the buffer's file name, else not at all. -/
def sourceMap (b : Buffer) (options : MapOptions) : SourceMap where
  file := options.file
  source := (options.source <|> b.filename).getD ""
  content := if options.includeContent then some b.base else none
  tokens := b.tokens options.hires

end Buffer

namespace MapOptions

/-- Write options. -/
def toJson (o : MapOptions) : Json :=
  .object [("file", .ofOption .string o.file), ("source", .ofOption .string o.source),
    ("include_content", .bool o.includeContent), ("hires", .bool o.hires)]

/-- Read options. -/
def ofJson? (v : Json) : Option MapOptions := do
  let o ← v.object?
  let file ← JsonObject.field? o "file" Json.string?
  let source ← JsonObject.field? o "source" Json.string?
  let includeContent ← JsonObject.fieldOr o "include_content" true Json.bool?
  let hires ← JsonObject.fieldOr o "hires" false Json.bool?
  some { file, source, includeContent, hires }

end MapOptions

namespace OverwriteMode

/-- Write options. -/
def toJson (o : OverwriteMode) : Json :=
  .object [("store_name", .bool o.storeName), ("content_only", .bool o.contentOnly)]

/-- Read options. -/
def ofJson? (v : Json) : Option OverwriteMode := do
  let o ← v.object?
  let storeName ← JsonObject.fieldOr o "store_name" false Json.bool?
  let contentOnly ← JsonObject.fieldOr o "content_only" false Json.bool?
  some { storeName, contentOnly }

end OverwriteMode

end ComponentEdit
