import ComponentEdit.Buffer.Basic

/-!
# Where rendered text comes from

The rendered text of a buffer is a row of fragments, some copied from the base
and some not. `Buffer.baseSpan?` maps a range of the rendered text back to
the base. It answers only if all of the range is copied and unbroken there;
an empty range is mapped by the first copied fragment that contains it or ends at it.
-/

namespace ComponentEdit
set_option autoImplicit false

/-- A fragment of the rendered text: its number of bytes and, if it is copied,
where in the base it starts. -/
structure Fragment where
  size : Nat
  origin : Option Nat
deriving DecidableEq, Repr, Inhabited

namespace Fragment

/-- A fragment that is not copied. -/
def inserted (t : Text) : Fragment := ⟨Text.byteSize t, none⟩

/-- The three fragments of a chunk. -/
def ofChunk (c : Chunk) : List Fragment :=
  let origin := match c.body with
    | .copied _ => some c.start
    | .replaced _ _ => none
  [inserted c.before, ⟨Text.byteSize c.body.text, origin⟩, inserted c.after]

/-- The base offset of a place among fragments of which the first
starts at `position`. -/
def locate (place : Nat) : (position : Nat) → List Fragment → Option Nat
  | _, [] => none
  | position, p :: ps =>
    match p.origin with
    | some o =>
      if position ≤ place && place ≤ position + p.size then some (o + (place - position))
      else locate place (position + p.size) ps
    | none => locate place (position + p.size) ps

/-- Follow a range through the fragments. `found` is the base
span of the part of the range that lies before `position`. -/
def follow (range : Span) : (position : Nat) → (found : Option Span) → List Fragment → Option Span
  | _, found, [] => found
  | position, found, p :: ps =>
    let low := max range.start position
    let high := min range.stop (position + p.size)
    if high ≤ low then follow range (position + p.size) found ps
    else match p.origin with
      | none => none
      | some o =>
        let start := o + (low - position)
        let stop := o + (high - position)
        match found with
        | none => follow range (position + p.size) (some ⟨start, stop⟩) ps
        | some f =>
          if f.stop = start then follow range (position + p.size) (some ⟨f.start, stop⟩) ps
          else none

end Fragment

namespace Buffer

/-- The rendered text fragment by fragment. -/
def fragments (b : Buffer) : List Fragment :=
  .inserted b.front :: b.chunks.flatMap Fragment.ofChunk ++ [.inserted b.back]

/-- The base span of a range of the rendered text. -/
def baseSpan? (b : Buffer) (range : Span) : Option Span :=
  if range.isEmpty then (Fragment.locate range.start 0 b.fragments).map fun o => ⟨o, o⟩
  else (Fragment.follow range 0 none b.fragments).filter fun s => s.length == range.length

end Buffer

end ComponentEdit
