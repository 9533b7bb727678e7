import ComponentEdit.Descriptor.Basic

/-!
# What parsers report

A parser takes the text of a component to the blocks it found, in order, or to
nothing at all; it may also fail. A block is found at an explicit span of the
parsed text or, without one, where its descriptor says.
-/

namespace ComponentEdit
set_option autoImplicit false

/-- A block that a parser found. -/
structure ParsedBlock where
  role : Role
  descriptor : Descriptor := {}
  span : Option Span := none
deriving Inhabited

/-- A parser of components. -/
abbrev Parser := Text → Except Error (Option (List ParsedBlock))

end ComponentEdit
