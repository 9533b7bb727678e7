import ComponentEdit.Buffer.Basic

/-!
# Edits as values

An `Edit` names one of the eight operations on a buffer and its arguments.
`Edit.apply` carries it out. `Edit.within` readdresses an edit of a part of a
text to the whole: offsets are shifted by the part's start, and what goes to
the ends of the part is attached at its edges.
-/

namespace ComponentEdit
set_option autoImplicit false

/-- The operations on a buffer. -/
inductive Operation where
  | append
  | prepend
  | appendLeft
  | appendRight
  | prependLeft
  | prependRight
  | overwrite
  | remove
deriving DecidableEq, Repr, Inhabited

namespace Operation

/-- All operations. -/
def all : List Operation :=
  [.append, .prepend, .appendLeft, .appendRight, .prependLeft, .prependRight, .overwrite, .remove]

/-- The property name of an operation. -/
def name : Operation → String
  | .append => "append"
  | .prepend => "prepend"
  | .appendLeft => "appendLeft"
  | .appendRight => "appendRight"
  | .prependLeft => "prependLeft"
  | .prependRight => "prependRight"
  | .overwrite => "overwrite"
  | .remove => "remove"

/-- The operation of a property name. -/
def ofName? (key : String) : Option Operation := all.find? (·.name == key)

end Operation

/-- An edit of a buffer. -/
inductive Edit where
  | append (content : Text)
  | prepend (content : Text)
  | appendLeft (index : Nat) (content : Text)
  | appendRight (index : Nat) (content : Text)
  | prependLeft (index : Nat) (content : Text)
  | prependRight (index : Nat) (content : Text)
  | overwrite (start stop : Nat) (content : Text) (options : OverwriteMode)
  | remove (start stop : Nat)
deriving DecidableEq, Repr, Inhabited

namespace Edit

/-- The operation of an edit. -/
def operation : Edit → Operation
  | .append _ => .append
  | .prepend _ => .prepend
  | .appendLeft .. => .appendLeft
  | .appendRight .. => .appendRight
  | .prependLeft .. => .prependLeft
  | .prependRight .. => .prependRight
  | .overwrite .. => .overwrite
  | .remove .. => .remove

/-- Carry out an edit. -/
def apply (e : Edit) (b : Buffer) : Attempt Buffer :=
  match e with
  | .append content => .done (b.append content)
  | .prepend content => .done (b.prepend content)
  | .appendLeft i content => b.appendLeft i content
  | .appendRight i content => b.appendRight i content
  | .prependLeft i content => b.prependLeft i content
  | .prependRight i content => b.prependRight i content
  | .overwrite start stop content options => b.overwrite start stop content options
  | .remove start stop => b.remove start stop

/-- The same edit addressed to a text that has the edited text at `part`. -/
def within (part : Span) : Edit → Edit
  | .append content => .appendRight part.stop content
  | .prepend content => .prependRight part.start content
  | .appendLeft i content => .appendLeft (part.start + i) content
  | .appendRight i content => .appendRight (part.start + i) content
  | .prependLeft i content => .prependLeft (part.start + i) content
  | .prependRight i content => .prependRight (part.start + i) content
  | .overwrite start stop content options =>
    .overwrite (part.start + start) (part.start + stop) content options
  | .remove start stop => .remove (part.start + start) (part.start + stop)

end Edit

namespace Buffer

/-- The buffer after a sequence of edits, accepted or refused. -/
def run (b : Buffer) (edits : List Edit) : Buffer := edits.foldl (fun b e => (e.apply b).left) b

end Buffer

end ComponentEdit
