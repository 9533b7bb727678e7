import ComponentEdit.Text.Basic

/-!
# Lines and columns

A `Caret` is a zero-based line and column, the column in UTF-16 units as
readers of source maps expect; `Caret.after` moves one over a text. A
`LineIndex` finds the caret of any byte offset from the offsets at which lines
start. Lines end at `\n` only: a carriage return is a character like others.
-/

namespace ComponentEdit
set_option autoImplicit false

/-- A zero-based line and a column in UTF-16 units. -/
structure Caret where
  line : Nat
  column : Nat
deriving DecidableEq, Repr, Inhabited

namespace Caret

/-- The start of a text. -/
def origin : Caret := ⟨0, 0⟩

/-- The start of the line below. -/
def nextLine (c : Caret) : Caret := ⟨c.line + 1, 0⟩

/-- Step over one character. -/
def step (c : Caret) (ch : Char) : Caret :=
  if ch = '\n' then c.nextLine else ⟨c.line, c.column + Text.unitsOf ch⟩

/-- Step over a text. -/
def after (c : Caret) (t : Text) : Caret := t.foldl step c

@[simp] theorem after_nil (c : Caret) : c.after [] = c := rfl

@[simp] theorem after_cons (c : Caret) (ch : Char) (t : Text) :
    c.after (ch :: t) = (c.step ch).after t := rfl

@[simp] theorem after_append (c : Caret) (s t : Text) : c.after (s ++ t) = (c.after s).after t := by
  simp [after, List.foldl_append]

end Caret

namespace Text

/-- How many line breaks a text holds. -/
def lineBreaks (t : Text) : Nat := t.count '\n'

/-- The characters from the last line break on, the break included; all of
them when there is none. -/
def lastColumn (t : Text) : Nat :=
  let rest := (t.reverse.takeWhile (· != '\n')).length
  if t.contains '\n' then rest + 1 else rest

/-- A text taken apart at its line breaks, which are left out. -/
def lines : Text → List Text
  | [] => [[]]
  | c :: cs =>
    if c = '\n' then [] :: lines cs
    else match lines cs with
      | [] => [[c]]
      | l :: ls => (c :: l) :: ls

/-- The byte offsets after the line breaks of a text that itself starts at `offset`. -/
def breaksAfter (offset : Nat) : Text → List Nat
  | [] => []
  | c :: cs =>
    let next := offset + c.utf8Size
    if c = '\n' then next :: breaksAfter next cs else breaksAfter next cs

end Text

/-- A text with the byte offsets at which its lines start, in order. -/
structure LineIndex where
  text : Text
  starts : List Nat

namespace LineIndex

/-- The index of a text. -/
def ofText (t : Text) : LineIndex := ⟨t, 0 :: Text.breaksAfter 0 t⟩

/-- The caret of a byte offset. Offsets past the end stand for the end, and
inside a character the column counts the bytes since the line's start. -/
def locate (index : LineIndex) (offset : Nat) : Caret :=
  let offset := min offset index.text.byteSize
  let line := index.starts.countP (· ≤ offset) - 1
  let start := index.starts.getD line 0
  match Text.slice? index.text start offset with
  | some segment => ⟨line, Text.units segment⟩
  | none => ⟨line, offset - start⟩

end LineIndex

end ComponentEdit
