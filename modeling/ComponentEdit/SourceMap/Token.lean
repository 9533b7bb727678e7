import ComponentEdit.Buffer.Basic

/-!
# Source map tokens

A token says that the rendered text from one caret on comes from a caret of
the base text. The rendered text is a row of stretches: attached text, which
gets no tokens; replacements, whose every line points to where the replaced
text started, an empty last line excepted; and copies, of which each character
or only the first one of each line gets a token. One `Walk` goes over all of
them, and each stretch takes up where the one before it has left the caret.
-/

namespace ComponentEdit
set_option autoImplicit false

/-- A place in the rendered text and the place it comes from. -/
structure Token where
  generated : Caret
  source : Caret
  name : Option Text := none
deriving DecidableEq, Repr, Inhabited

/-- A stretch of the rendered text. -/
inductive Stretch where
  /-- Text without a place in the base. -/
  | attached (text : Text)
  /-- Text in place of a stretch of the base that started at `source`. -/
  | replaced (text : Text) (source : Caret) (name : Option Text)
  /-- Text of the base from `source` on. -/
  | copied (text : Text) (source : Caret)
deriving DecidableEq, Repr

/-- The text of a stretch. -/
def Stretch.text : Stretch → Text
  | .attached t => t
  | .replaced t _ _ => t
  | .copied t _ => t

/-- A walk over the rendered text: the caret it has come to and the tokens made
on the way, the last one first. -/
structure Walk where
  here : Caret := .origin
  made : List Token := []
deriving DecidableEq, Repr

namespace Walk

/-- Go on over a text. -/
def pass (w : Walk) (t : Text) : Walk := { w with here := w.here.after t }

/-- Go on to the line below. -/
def nextLine (w : Walk) : Walk := { w with here := w.here.nextLine }

/-- Make a token for the place the walk has come to. -/
def note (w : Walk) (source : Caret) (name : Option Text) : Walk :=
  { w with made := ⟨w.here, source, name⟩ :: w.made }

/-- Go over the lines of a replacement; `isFirst` is true on the first one. -/
def replaced (source : Caret) (name : Option Text) : (isFirst : Bool) → Walk → List Text → Walk
  | _, w, [] => w
  | isFirst, w, line :: lines =>
    let w := if isFirst then w else w.nextLine
    let w := if isFirst || !lines.isEmpty || !line.isEmpty then w.note source name else w
    replaced source name false (w.pass line) lines

/-- Go over copied text, making a token for every character if `hires`, else for
the first one of each line. Line breaks get none. -/
def copied (hires : Bool) : (isFirst : Bool) → (source : Caret) → Walk → Text → Walk
  | _, _, w, [] => w
  | isFirst, source, w, c :: cs =>
    if c = '\n' then copied hires true source.nextLine w.nextLine cs
    else
      let w := if hires || isFirst then w.note source none else w
      copied hires false (source.step c) (w.pass [c]) cs

/-- Go over a stretch. -/
def visit (hires : Bool) (w : Walk) : Stretch → Walk
  | .attached t => w.pass t
  | .replaced t source name => replaced source name true w (Text.lines t)
  | .copied t source => copied hires true source w t

end Walk

namespace Buffer

/-- The stretches of a chunk. A replacement by nothing is no stretch. -/
def stretchesOf (b : Buffer) (c : Chunk) : List Stretch :=
  let source := (LineIndex.ofText b.base).locate c.start
  let body := match c.body with
    | .copied t => [.copied t source]
    | .replaced t named =>
      if t.isEmpty then []
      else [.replaced t source (if named then some (Text.slice b.base c.start c.stop) else none)]
  .attached c.before :: body ++ [.attached c.after]

/-- The rendered text as a row of stretches. -/
def stretches (b : Buffer) : List Stretch :=
  .attached b.front :: b.chunks.flatMap b.stretchesOf ++ [.attached b.back]

/-- The tokens of the rendered text, in its order. -/
def tokens (b : Buffer) (hires : Bool) : List Token :=
  (b.stretches.foldl (Walk.visit hires) {}).made.reverse

end Buffer

end ComponentEdit
