import ComponentEdit.Buffer.Edit

/-!
# Shared buffers

The buffer of a document is used by the document and by its blocks. A `Source`
is the buffer together with who is using it at the moment: while it is read
others may read it, and while it is written nobody else may use it. Blocks do
not own their source. Where it may be gone it is an `Option`, and `held` is the
source or the error that it is gone.
-/

namespace ComponentEdit
set_option autoImplicit false

/-- The use that is being made of a shared buffer. -/
inductive Access where
  | free
  | reading
  | writing
deriving DecidableEq, Repr, Inhabited

/-- A shared buffer. -/
structure Source where
  buffer : Buffer
  access : Access := .free
deriving Inhabited

namespace Source

/-- The buffer for reading. -/
def read (s : Source) : Except Error Buffer :=
  if s.access = .writing then .error .sourceBorrowed else .ok s.buffer

/-- The edited text. -/
def text (s : Source) : Except Error Text := s.read.map Buffer.render

/-- The buffer for writing. -/
def write (s : Source) : Except Error Buffer :=
  if s.access = .free then .ok s.buffer else .error .sourceBorrowed

/-- A source that is still there. -/
def held : Option Source → Except Error Source
  | some s => .ok s
  | none => .error .detachedBlock

/-- Carry out an edit of the buffer. -/
def edit (s : Source) (e : Edit) : Attempt Source :=
  match s.write with
  | .error err => .refused s err
  | .ok b => (e.apply b).map fun b => { s with buffer := b }

end Source

end ComponentEdit
