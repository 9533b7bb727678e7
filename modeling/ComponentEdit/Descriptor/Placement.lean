import ComponentEdit.Json.Fields
import ComponentEdit.Location

/-!
# Where a block sits

Parsers report the place of a block either as a full location or as a bare pair
of offsets. Both shapes are kept as they were read and written back the same
way; a value that has the shape of a location is read as one. Locations and
positions are records and may be given as arrays, a pair of offsets may not.
-/

namespace ComponentEdit
set_option autoImplicit false

namespace Position

/-- Write a position. -/
def toJson (p : Position) : Json :=
  .object [("offset", .nat p.offset), ("line", .nat p.line), ("column", .nat p.column)]

/-- Read a position. -/
def ofJson? (v : Json) : Option Position := do
  let o ← v.record? ["offset", "line", "column"]
  let offset ← JsonObject.field o "offset" Json.natural?
  let line ← JsonObject.field o "line" Json.natural?
  let column ← JsonObject.field o "column" Json.natural?
  some ⟨offset, line, column⟩

end Position

namespace Location

/-- Write a location. -/
def toJson (l : Location) : Json :=
  .object [("start", l.start.toJson), ("end", l.stop.toJson), ("source", .ofText l.source)]

/-- Read a location. -/
def ofJson? (v : Json) : Option Location := do
  let o ← v.record? ["start", "end", "source"]
  let start ← JsonObject.field o "start" Position.ofJson?
  let stop ← JsonObject.field o "end" Position.ofJson?
  let source ← JsonObject.field o "source" Json.text?
  some ⟨start, stop, source⟩

end Location

namespace Span

/-- Write a span. -/
def toJson (s : Span) : Json := .object [("start", .nat s.start), ("end", .nat s.stop)]

/-- Read a span. -/
def ofJson? (v : Json) : Option Span := do
  let o ← v.object?
  let start ← JsonObject.field o "start" Json.natural?
  let stop ← JsonObject.field o "end" Json.natural?
  some ⟨start, stop⟩

end Span

/-- Where a block sits in its document. -/
inductive Placement where
  | location (l : Location)
  | offsets (s : Span)
deriving DecidableEq, Repr, Inhabited

namespace Placement

/-- The byte offsets of a placement. -/
def span : Placement → Span
  | .location l => l.span
  | .offsets s => s

/-- Write a placement in its own shape. -/
def toJson : Placement → Json
  | .location l => l.toJson
  | .offsets s => s.toJson

/-- Read a placement: a location if the value has that shape, else a pair of offsets. -/
def ofJson? (v : Json) : Option Placement :=
  match Location.ofJson? v with
  | some l => some (.location l)
  | none => (Span.ofJson? v).map .offsets

end Placement

end ComponentEdit
