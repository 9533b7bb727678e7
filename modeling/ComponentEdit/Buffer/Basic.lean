import ComponentEdit.Buffer.Chunk
import ComponentEdit.Error
import ComponentEdit.Text.Lines

/-!
# Editable buffers

A buffer remembers the text it was made from. Edits are addressed by byte
offsets into that base text, so an offset stays valid whatever was edited
before. The chunks cover the base in order; `cut` makes sure that one ends
where an edit is to take place, and is refused inside text that replaces
something.

Text put in to the left of an offset is attached to the chunk that ends there,
text put in to the right to the chunk that starts there, and it goes when that
chunk is replaced or removed. An edit of a range cuts at its start before it
cuts at its end, and keeps the first cut when the second is refused.
-/

namespace ComponentEdit
set_option autoImplicit false

/-- How a range is to be replaced. -/
structure OverwriteMode where
  /-- Record the text that was replaced as a name in source maps. -/
  storeName : Bool := false
  /-- Keep the text that was attached to the range. -/
  contentOnly : Bool := false
deriving DecidableEq, Repr, Inhabited

/-- A text with the edits made to it. -/
structure Buffer where
  base : Text
  filename : Option String := none
  /-- Text in front of all chunks. -/
  front : Text := []
  /-- Text behind all chunks. -/
  back : Text := []
  chunks : List Chunk
deriving DecidableEq, Repr, Inhabited

namespace Buffer

/-- The buffer of a text, without edits. -/
def ofText (t : Text) : Buffer := { base := t, chunks := [.ofText t] }

/-- The same buffer under a file name. -/
def withFilename (b : Buffer) (name : String) : Buffer := { b with filename := some name }

/-- The edited text. -/
def render (b : Buffer) : Text := b.front ++ b.chunks.flatMap Chunk.render ++ b.back

/-- The number of bytes of the edited text. -/
def length (b : Buffer) : Nat := Text.byteSize b.render

/-- Whether nothing is left. -/
def isEmpty (b : Buffer) : Bool := b.length == 0

/-- Whether the edited text differs from the base. -/
def hasChanged (b : Buffer) : Bool := b.render != b.base

/-- Offsets have to lie in the base and between two of its characters. -/
def checkIndex (b : Buffer) (i : Nat) : Except Error Unit :=
  if i > Text.byteSize b.base then .error (.outOfBounds i (Text.byteSize b.base))
  else if !Text.isBoundary b.base i then .error (.notCharBoundary i)
  else .ok ()

/-- Ranges have to be in order, and then both ends are checked. -/
def checkRange (b : Buffer) (start stop : Nat) : Except Error Unit :=
  if start > stop then .error (.invertedRange start stop)
  else do
    b.checkIndex start
    b.checkIndex stop

/-- The refusal of a cut at `i` through the chunk `c`. -/
def splitError (b : Buffer) (c : Chunk) (i : Nat) : Error :=
  let caret := (LineIndex.ofText b.base).locate i
  .splitEditedChunk (caret.line + 1) caret.column (Text.slice b.base c.start c.stop)

/-- Make sure that no chunk lies across `i`. -/
def cut (b : Buffer) (i : Nat) : Except Error Buffer := do
  b.checkIndex i
  match b.chunks.find? (·.crosses i) with
  | none => .ok b
  | some c =>
    if c.body.isDivisible then .ok { b with chunks := b.chunks.flatMap (·.divide i) }
    else .error (b.splitError c i)

/-- Change the text attached to the left of `i`. -/
def attachLeft (b : Buffer) (i : Nat) (f : Text → Text) : Buffer :=
  if b.chunks.any (·.stop == i) then
    { b with chunks := b.chunks.map fun c =>
        if c.stop == i then { c with after := f c.after } else c }
  else { b with front := f b.front }

/-- Change the text attached to the right of `i`. -/
def attachRight (b : Buffer) (i : Nat) (f : Text → Text) : Buffer :=
  if b.chunks.any (·.start == i) then
    { b with chunks := b.chunks.map fun c =>
        if c.start == i then { c with before := f c.before } else c }
  else { b with back := f b.back }

/-- Put text behind everything. -/
def append (b : Buffer) (content : Text) : Buffer := { b with back := b.back ++ content }

/-- Put text in front of everything. -/
def prepend (b : Buffer) (content : Text) : Buffer := { b with front := content ++ b.front }

/-- Cut at `i` and go on, or be refused without a change. -/
def atCut (b : Buffer) (i : Nat) (next : Buffer → Attempt Buffer) : Attempt Buffer :=
  match b.cut i with
  | .ok b => next b
  | .error e => .refused b e

/-- Put text in to the left of `i`, behind what is attached there. -/
def appendLeft (b : Buffer) (i : Nat) (content : Text) : Attempt Buffer :=
  b.atCut i fun b => .done (b.attachLeft i (· ++ content))

/-- Put text in to the left of `i`, in front of what is attached there. -/
def prependLeft (b : Buffer) (i : Nat) (content : Text) : Attempt Buffer :=
  b.atCut i fun b => .done (b.attachLeft i (content ++ ·))

/-- Put text in to the right of `i`, behind what is attached there. -/
def appendRight (b : Buffer) (i : Nat) (content : Text) : Attempt Buffer :=
  b.atCut i fun b => .done (b.attachRight i (· ++ content))

/-- Put text in to the right of `i`, in front of what is attached there. -/
def prependRight (b : Buffer) (i : Nat) (content : Text) : Attempt Buffer :=
  b.atCut i fun b => .done (b.attachRight i (content ++ ·))

/-- Put `content` in place of the chunks from `start` to `stop`: the first takes
the content, the others become blank. -/
def replaceChunks (b : Buffer) (start stop : Nat) (content : Text) (options : OverwriteMode) :
    Buffer :=
  { b with chunks := b.chunks.map fun c =>
      if c.start == start then c.replace content options.storeName options.contentOnly
      else if start < c.start && c.start < stop then c.blank
      else c }

/-- Replace a range of the base. -/
def overwrite (b : Buffer) (start stop : Nat) (content : Text) (options : OverwriteMode) :
    Attempt Buffer :=
  match b.checkRange start stop with
  | .error e => .refused b e
  | .ok () =>
    if start = stop then .refused b (.zeroLengthOverwrite start)
    else b.atCut start fun b => b.atCut stop fun b =>
      .done (b.replaceChunks start stop content options)

/-- Remove a range of the base and what is attached to it. -/
def remove (b : Buffer) (start stop : Nat) : Attempt Buffer :=
  match b.checkRange start stop with
  | .error e => .refused b e
  | .ok () =>
    if start = stop then .done b
    else b.atCut start fun b => b.atCut stop fun b => .done (b.replaceChunks start stop [] {})

end Buffer

end ComponentEdit
