import ComponentEdit.Proofs.Buffer.Slots
import ComponentEdit.Proofs.Buffer.Tiling

/-!
# Layouts

A layout is the slots of a buffer together with what decides which edits are
accepted and what a replacement keeps: the offsets at which chunks meet, and the
offsets inside a replacement that is not empty, where no cut is possible. It says
for each offset alone what the buffer says by a list of chunks. `Layout.accepts`
and `Layout.apply` carry out an edit on it, `Layout.run` a row of them; a range edit
that is refused at its stop keeps the cut at its start.
-/

namespace ComponentEdit
set_option autoImplicit false

/-- The slots of a buffer and where it can be cut. -/
structure Layout extends Slots where
  /-- Whether a chunk starts or stops at an offset. -/
  cut : Nat → Bool
  /-- Whether an offset lies inside a replacement that is not empty. -/
  sealed : Nat → Bool

namespace Layout

/-- The layout of a text without edits. -/
def ofText (t : Text) : Layout :=
  { Slots.ofText t with cut := fun i => i == 0 || i == Text.byteSize t, sealed := fun _ => false }

/-- Note a cut at `i`. -/
def mark (m : Layout) (i : Nat) : Layout := { m with cut := Function.update m.cut i true }

/-- Whether `base` can be cut at `i`. -/
def admits (base : Text) (m : Layout) (i : Nat) : Bool := Text.isBoundary base i && !m.sealed i

/-- Whether there is no cut strictly between two offsets. -/
def uncut (m : Layout) (i j : Nat) : Bool := decide (∀ k < j, i < k → m.cut k = false)

/-- Change the text to the left of `i`. -/
def attachLeft (m : Layout) (i : Nat) (f : Text → Text) : Layout :=
  { m with toSlots := m.toSlots.attachLeft i f }

/-- Change the text to the right of `i`. -/
def attachRight (m : Layout) (i : Nat) (f : Text → Text) : Layout :=
  { m with toSlots := m.toSlots.attachRight i f }

/-- Put `content` in place of a range that is cut at its ends. If only the content is
to be replaced, the texts at the ends of the first chunk stay. -/
def replace (m : Layout) (start stop : Nat) (content : Text) (options : OverwriteMode) : Layout where
  left i :=
    if (start < i ∧ i ≤ stop) ∧ ¬(options.contentOnly = true ∧ m.uncut start i = true) then []
    else m.left i
  right i :=
    if (start ≤ i ∧ i < stop) ∧ ¬(options.contentOnly = true ∧ i = start) then [] else m.right i
  body i := if i = start then content else if start < i ∧ i < stop then [] else m.body i
  cut := m.cut
  sealed i :=
    if start < i ∧ i < stop then !content.isEmpty && m.uncut start (i + 1) else m.sealed i

/-- Cut at the ends of a range and replace what is between. -/
def overwrite (m : Layout) (start stop : Nat) (content : Text) (options : OverwriteMode) : Layout :=
  ((m.mark start).mark stop).replace start stop content options

/-- Whether an edit is accepted. -/
def accepts (base : Text) (m : Layout) : Edit → Bool
  | .append _ | .prepend _ => true
  | .appendLeft i _ | .appendRight i _ | .prependLeft i _ | .prependRight i _ => m.admits base i
  | .overwrite start stop _ _ => decide (start < stop) && m.admits base start && m.admits base stop
  | .remove start stop =>
    decide (start ≤ stop) && Text.isBoundary base start && Text.isBoundary base stop &&
      (start == stop || (!m.sealed start && !m.sealed stop))

/-- The effect of an accepted edit of a base of `size` bytes. -/
def effect (size : Nat) (m : Layout) : Edit → Layout
  | .append content => m.attachRight size (· ++ content)
  | .prepend content => m.attachLeft 0 (content ++ ·)
  | .appendLeft i content => (m.mark i).attachLeft i (· ++ content)
  | .prependLeft i content => (m.mark i).attachLeft i (content ++ ·)
  | .appendRight i content => (m.mark i).attachRight i (· ++ content)
  | .prependRight i content => (m.mark i).attachRight i (content ++ ·)
  | .overwrite start stop content options => m.overwrite start stop content options
  | .remove start stop => if start = stop then m else m.overwrite start stop [] {}

/-- What a refused edit of a range leaves: the cut at its start, if only the one at
its stop was refused. -/
def halfway (base : Text) (m : Layout) (start stop : Nat) : Layout :=
  if start < stop ∧ m.admits base start = true ∧ Text.isBoundary base stop = true then m.mark start
  else m

/-- What an edit leaves, accepted or refused. -/
def apply (base : Text) (m : Layout) (e : Edit) : Layout :=
  if m.accepts base e then m.effect (Text.byteSize base) e
  else match e with
    | .overwrite start stop _ _ | .remove start stop => m.halfway base start stop
    | _ => m

/-- What edits leave, one after the other. -/
def run (base : Text) (m : Layout) (edits : List Edit) : Layout := edits.foldl (apply base) m

variable {m : Layout} {i j : Nat}

theorem mark_cut (m : Layout) (i j : Nat) :
    (m.mark i).cut j = if j = i then true else m.cut j := by
  simp [mark, Function.update_apply]

theorem admits_iff {base : Text} :
    m.admits base i = true ↔ Text.isBoundary base i = true ∧ m.sealed i = false := by
  simp [admits]

theorem le_of_admits {base : Text} (h : m.admits base i = true) : i ≤ Text.byteSize base :=
  Text.le_byteSize_of_isBoundary (admits_iff.1 h).1

theorem apply_of_accepts {base : Text} {e : Edit} (ok : m.accepts base e = true) :
    m.apply base e = m.effect (Text.byteSize base) e := by
  unfold apply
  exact if_pos ok

/-- A range is well addressed when it is in order and lies between boundaries. -/
def Addressed (base : Text) (start stop : Nat) : Prop :=
  start ≤ stop ∧ Text.isBoundary base start = true ∧ Text.isBoundary base stop = true

section Range
variable {base : Text} {start stop : Nat}

theorem accepts_overwrite_iff {content : Text} {options : OverwriteMode} :
    m.accepts base (.overwrite start stop content options) = true ↔
      start < stop ∧ m.admits base start = true ∧ m.admits base stop = true := by
  simp [accepts, and_assoc]

theorem accepts_remove_iff : m.accepts base (.remove start stop) = true ↔
    Addressed base start stop ∧
      (start = stop ∨ m.admits base start = true ∧ m.admits base stop = true) := by
  simp only [accepts, admits_iff, Addressed, Bool.and_eq_true, decide_eq_true_eq, Bool.or_eq_true,
    beq_iff_eq, Bool.not_eq_true']
  constructor
  · rintro ⟨⟨⟨le, hs⟩, he⟩, eq | ⟨s, e⟩⟩
    · exact ⟨⟨le, hs, he⟩, .inl eq⟩
    · exact ⟨⟨le, hs, he⟩, .inr ⟨⟨hs, s⟩, he, e⟩⟩
  · rintro ⟨⟨le, hs, he⟩, eq | ⟨⟨-, s⟩, -, e⟩⟩
    · exact ⟨⟨⟨le, hs⟩, he⟩, .inl eq⟩
    · exact ⟨⟨⟨le, hs⟩, he⟩, .inr ⟨s, e⟩⟩

theorem halfway_of_not_addressed (no : ¬Addressed base start stop) :
    m.halfway base start stop = m := by
  rw [halfway, if_neg]
  rintro ⟨lt, hs, he⟩
  exact no ⟨Nat.le_of_lt lt, (admits_iff.1 hs).1, he⟩

end Range

theorem uncut_iff : m.uncut i j = true ↔ ∀ k, i < k → k < j → m.cut k = false := by
  simp only [uncut, decide_eq_true_eq]
  exact ⟨fun h k lo hi => h k hi lo, fun h k hi lo => h k lo hi⟩

end Layout

namespace Chunk

/-- What a chunk shows in place of the character of `base` at `i`. -/
def bodyAt (base : Text) (c : Chunk) (i : Nat) : Text :=
  match c.body with
  | .copied _ => Text.charAt base i
  | .replaced t _ => if i = c.start then t else []

/-- A chunk says the same as a layout about the offsets it covers. -/
structure Agrees (base : Text) (m : Layout) (c : Chunk) : Prop where
  before : m.right c.start = c.before
  after : m.left c.stop = c.after
  body : ∀ i, c.start ≤ i → i < c.stop → m.body i = c.bodyAt base i
  cut_start : m.cut c.start = true ∧ m.sealed c.start = false
  cut_stop : m.cut c.stop = true ∧ m.sealed c.stop = false
  quiet : ∀ i, c.start < i → i < c.stop → m.left i = [] ∧ m.right i = []
  whole : ∀ i, c.start < i → i < c.stop → m.cut i = false ∧ m.sealed i = !c.body.isDivisible

end Chunk

/-- A buffer of a base that is not empty, and a layout that says the same of it. -/
structure Buffer.LaidOut (b : Buffer) (m : Layout) : Prop where
  tiled : b.Tiled
  base_ne : b.base ≠ []
  front : m.left 0 = b.front
  back : m.right (Text.byteSize b.base) = b.back
  chunks : ∀ c ∈ b.chunks, c.Agrees b.base m

end ComponentEdit
