import ComponentEdit.Text.Basic

/-!
# Finding one text in another

`occurrences` lists the byte offsets of the matches of a needle that a scan
from left to right meets when each search resumes at the end of the match
before; `find?` is the first of them.
-/

namespace ComponentEdit.Text
set_option autoImplicit false

/-- The scan behind `occurrences`: `skip` characters still belong to the last
match, and the rest of the text starts at byte `offset`. -/
def scan (needle : Text) : (skip offset : Nat) → Text → List Nat
  | _, _, [] => []
  | skip + 1, offset, c :: cs => scan needle skip (offset + c.utf8Size) cs
  | 0, offset, c :: cs =>
    if needle.isPrefixOf (c :: cs) then
      offset :: scan needle (needle.length - 1) (offset + c.utf8Size) cs
    else scan needle 0 (offset + c.utf8Size) cs

/-- The byte offsets of the matches that do not overlap, leftmost first. An
empty needle matches nowhere. -/
def occurrences (t needle : Text) : List Nat :=
  if needle.isEmpty then [] else scan needle 0 0 t

/-- The byte offset of the first match. -/
def find? (t needle : Text) : Option Nat := (occurrences t needle).head?

end ComponentEdit.Text
