import ComponentEdit.Text.Basic

/-!
# Chunks

A chunk is a stretch of the base text together with what editing has made
of it: its body, which is a copy of the stretch or a replacement, and the texts
attached at its two ends. `Chunk.left` and `Chunk.right` are its two parts when
it is cut; the text attached at its end goes with the right part, and together
they render as the chunk did (`render_divide`).
-/

namespace ComponentEdit
set_option autoImplicit false

/-- What stands in place of a stretch of the base. -/
inductive Body where
  /-- The stretch itself. -/
  | copied (text : Text)
  /-- Other text; `named` asks source maps to record the stretch as a name. -/
  | replaced (text : Text) (named : Bool)
deriving DecidableEq, Repr, Inhabited

namespace Body

/-- The text that is rendered. -/
def text : Body → Text
  | .copied t => t
  | .replaced t _ => t

/-- Whether a body can be cut: a copy can, and so can a replacement by nothing. -/
def isDivisible : Body → Bool
  | .copied _ => true
  | .replaced t _ => t.isEmpty

/-- The part of a body before the byte at `i`. -/
def left (i : Nat) : Body → Body
  | .copied t => .copied (t.takeBytes i)
  | .replaced _ named => .replaced [] named

/-- The part of a body from the byte at `i` on. -/
def right (i : Nat) : Body → Body
  | .copied t => .copied (t.dropBytes i)
  | .replaced _ _ => .replaced [] false

end Body

/-- A stretch of the base text and the edits anchored to it. -/
structure Chunk where
  start : Nat
  stop : Nat
  /-- Text attached to the right of `start`. -/
  before : Text := []
  body : Body
  /-- Text attached to the left of `stop`. -/
  after : Text := []
deriving DecidableEq, Repr, Inhabited

namespace Chunk

/-- The whole of a text, not edited. -/
def ofText (t : Text) : Chunk := { start := 0, stop := Text.byteSize t, body := .copied t }

/-- The text of a chunk. -/
def render (c : Chunk) : Text := c.before ++ c.body.text ++ c.after

/-- Whether an offset lies strictly inside a chunk. -/
def crosses (c : Chunk) (i : Nat) : Bool := decide (c.start < i) && decide (i < c.stop)

/-- The part of a chunk before `i`. -/
def left (c : Chunk) (i : Nat) : Chunk :=
  { c with stop := i, body := c.body.left (i - c.start), after := [] }

/-- The part of a chunk from `i` on. -/
def right (c : Chunk) (i : Nat) : Chunk :=
  { start := i, stop := c.stop, body := c.body.right (i - c.start), after := c.after }

/-- A chunk in two parts when `i` lies inside it, else unchanged. -/
def divide (c : Chunk) (i : Nat) : List Chunk :=
  if c.crosses i then [c.left i, c.right i] else [c]

/-- Put other text in place of a chunk; attached text stays only if asked for. -/
def replace (c : Chunk) (content : Text) (named keepAttached : Bool) : Chunk :=
  { c with
    before := if keepAttached then c.before else []
    body := .replaced content named
    after := if keepAttached then c.after else [] }

/-- A chunk with nothing left of it. -/
def blank (c : Chunk) : Chunk := c.replace [] false false

/-- Cutting a chunk that can be cut keeps its text. -/
theorem render_divide {c : Chunk} (h : c.body.isDivisible = true) (i : Nat) :
    (c.divide i).flatMap render = c.render := by
  unfold divide
  split
  · cases hb : c.body with
    | copied t =>
      simp [render, left, right, Body.left, Body.right, Body.text, hb,
        ← List.append_assoc (Text.takeBytes t (i - c.start)), Text.takeBytes_append_dropBytes]
    | replaced t named =>
      have ht : t = [] := by simpa [Body.isDivisible, hb] using h
      simp [render, left, right, Body.left, Body.right, Body.text, hb, ht]
  · simp

end Chunk

end ComponentEdit
