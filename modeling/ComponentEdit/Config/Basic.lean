import ComponentEdit.Error
import ComponentEdit.SourceMap.Basic
import ComponentEdit.Toml.Document

/-!
# Configuration

The settings of a document, read from TOML. Keys that are not settings are
ignored as long as their values can be read, and settings that are missing have
defaults. `Config.load` takes the first of three file names that is there.
-/

namespace ComponentEdit
set_option autoImplicit false

/-- The settings of a document. -/
structure Config where
  /-- The name of the file that the document was read from. -/
  filename : Option String := none
  /-- Parsing without a parser does nothing instead of failing. -/
  silent : Bool := false
  /-- Defaults for source maps. -/
  sourceMap : MapOptions := {}
deriving DecidableEq, Repr, Inhabited

namespace Config

/-- Write a configuration. -/
def toJson (c : Config) : Json :=
  .object [("filename", .ofOption .string c.filename), ("silent", .bool c.silent),
    ("sourcemap", c.sourceMap.toJson)]

/-- Read a configuration from JSON. -/
def ofJson? (v : Json) : Option Config := do
  let o ← v.object?
  let filename ← JsonObject.field? o "filename" Json.string?
  let silent ← JsonObject.fieldOr o "silent" false Json.bool?
  let sourceMap ← JsonObject.fieldOr o "sourcemap" {} MapOptions.ofJson?
  some { filename, silent, sourceMap }

/-- A setting that may be missing. -/
def setting {α : Type} (default : α) (read : Toml.Value → Option α) : Option Toml.Value → Option α
  | none => some default
  | some v => read v

/-- A string of TOML. -/
def tomlString? : Toml.Value → Option (Option String)
  | .string s => some (some s)
  | _ => none

/-- A boolean of TOML. -/
def tomlBool? : Toml.Value → Option Bool
  | .boolean b => some b
  | _ => none

/-- Source map options found by key or by place. -/
def sourceMapOf (find : Nat → String → Option Toml.Value) : Option MapOptions := do
  let file ← setting none tomlString? (find 0 "file")
  let source ← setting none tomlString? (find 1 "source")
  let includeContent ← setting true tomlBool? (find 2 "include_content")
  let hires ← setting false tomlBool? (find 3 "hires")
  some { file, source, includeContent, hires }

/-- Source map options: a table, or an array that lists them in order. A table is
read as a whole, an array only as far as there are options. A date or time sets
none of them. -/
def sourceMapOfToml? : Toml.Value → Option MapOptions
  | .table fields =>
    if Toml.fieldsReadable fields then
      sourceMapOf fun _ key => (fields.find? (·.1 == key)).map (·.2)
    else none
  | .array items => sourceMapOf fun place _ => items[place]?
  | .datetime _ => some {}
  | _ => none

/-- Read a configuration from TOML. -/
def ofToml (text : Text) : Except Error Config :=
  let config? : Option Config := do
    let fields ← Toml.parse? text
    let get (key : String) := (fields.find? (·.1 == key)).map (·.2)
    let filename ← setting none tomlString? (get "filename")
    let silent ← setting false tomlBool? (get "silent")
    let sourceMap ← setting {} sourceMapOfToml? (get "sourcemap")
    if Toml.fieldsReadable (fields.filter (·.1 != "sourcemap")) then
      some { filename, silent, sourceMap }
    else none
  match config? with
  | some c => .ok c
  | none => .error .configParse

/-- The same configuration with a file name. -/
def withFilename (c : Config) (name : String) : Config := { c with filename := some name }

/-- The same configuration with `silent` set. -/
def withSilent (c : Config) (silent : Bool) : Config := { c with silent }

end Config

/-- What stands at a path of a directory. -/
inductive DirectoryEntry where
  | file (bytes : ByteArray)
  | directory

/-- A directory: what stands at each path. -/
abbrev Directory := String → Option DirectoryEntry

namespace Config

/-- The file names of a configuration, first choice first. -/
def candidates : List String := ["sfc.toml", ".sfc.toml", ".config/sfc.toml"]

/-- The first candidate that is a file. -/
def resolve? (dir : Directory) : Option String :=
  candidates.find? fun path => match dir path with
    | some (.file _) => true
    | _ => false

/-- The configuration of a directory, if it has one. -/
def load (dir : Directory) : Except Error (Option Config) :=
  match (resolve? dir).bind dir with
  | some (.file bytes) =>
    match String.fromUTF8? bytes with
    | some text => (ofToml text.toList).map some
    | none => .error .io
  | _ => .ok none

end Config

end ComponentEdit
