import ComponentEdit.Descriptor.Basic

/-!
# Writing blocks as markup

The parts that all dialects share: attributes, tags, and blocks joined into
sections and sections into a component. Attribute values go between the quotes
as they are; values that are not text are written as compact JSON.
-/

namespace ComponentEdit.Markup
set_option autoImplicit false

/-- An attribute: the bare key for true, else key and quoted value. -/
def writeAttribute (key : String) (value : Json) : Text :=
  let quoted (t : Text) : Text := key.toList ++ ['=', '"'] ++ t ++ ['"']
  match value with
  | .bool true => key.toList
  | .string s => quoted s.toList
  | v => quoted v.render

/-- Attributes with blanks between them, those with a key in `skip` left out. -/
def writeAttributes (attrs : JsonObject) (skip : List String) : Text :=
  [' '].intercalate ((attrs.filter fun f => !skip.contains f.1).map fun f => writeAttribute f.1 f.2)

/-- An element: its opening tag holds the name and those parts that are not
empty, and the content stands on lines of its own. -/
def element (name : Text) (parts : List Text) (content : Text) : Text :=
  let opening := [' '].intercalate ((name :: parts).filter fun p => !p.isEmpty)
  ['<'] ++ opening ++ ['>', '\n'] ++ content ++ ['\n', '<', '/'] ++ name ++ ['>']

/-- Texts with a blank line between them. -/
def paragraphs (ts : List Text) : Text := ['\n', '\n'].intercalate ts

/-- The sections of a component, empty ones left out. -/
def sections (ts : List Text) : Text := paragraphs (ts.filter fun t => !t.isEmpty)

/-- A component: for each role in order the section of its blocks. -/
def component (roles : List Role) (writeBlock : Option Descriptor → Role → Text)
    (blocks : BlockSet) : Text :=
  sections (roles.map fun r => paragraphs ((blocks.get r).map fun d => writeBlock (some d) r))

end ComponentEdit.Markup
