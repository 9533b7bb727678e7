import ComponentEdit.Error
import ComponentEdit.Text.Lines
import ComponentEdit.Text.Search

/-!
# Positions and locations

A `Position` is the caret after a stretch of text: its byte offset, its line,
and a column that counts characters and, below the first line, also the line
break in front of them. A `Location` is a part of a text with the positions of
its two ends. Locations come from a pair of offsets, from a whole text, or from
a search.
-/

namespace ComponentEdit
set_option autoImplicit false

/-- A place in a text. -/
structure Position where
  offset : Nat
  line : Nat
  column : Nat
deriving DecidableEq, Repr, Inhabited

/-- The place reached after reading `read`. -/
def Position.after (read : Text) : Position :=
  ⟨Text.byteSize read, Text.lineBreaks read, Text.lastColumn read⟩

/-- A part of a text and where it starts and stops. -/
structure Location where
  start : Position
  stop : Position
  source : Text
deriving DecidableEq, Repr, Inhabited

namespace Location

/-- The byte offsets of a location. -/
def span (l : Location) : Span := ⟨l.start.offset, l.stop.offset⟩

/-- How many bytes a location covers. -/
def length (l : Location) : Nat := l.stop.offset - l.start.offset

/-- Whether a location starts where it stops. -/
def isEmpty (l : Location) : Bool := l.start.offset == l.stop.offset

/-- The location of the part of `t` from `start` to `stop`, for offsets that
are boundaries of `t` in order. -/
def between (t : Text) (start stop : Nat) : Location :=
  ⟨.after (Text.takeBytes t start), .after (Text.takeBytes t stop), Text.slice t start stop⟩

/-- The whole of a text. -/
def ofWhole (t : Text) : Location := ⟨⟨0, 0, 0⟩, .after t, t⟩

/-- The location of a pair of offsets. Order and range are checked before
boundaries, and the start before the end. -/
def ofOffsets (t : Text) (start stop : Nat) : Except Error Location :=
  if start > stop || stop > Text.byteSize t then
    .error (.invalidOffsets start stop (Text.byteSize t))
  else if !Text.isBoundary t start then .error (.notCharBoundary start)
  else if !Text.isBoundary t stop then .error (.notCharBoundary stop)
  else .ok (between t start stop)

/-- The locations of the matches of `needle`, leftmost first and without overlap. -/
def findAll (t needle : Text) : List Location :=
  (Text.occurrences t needle).map fun i => between t i (i + Text.byteSize needle)

end Location

end ComponentEdit
