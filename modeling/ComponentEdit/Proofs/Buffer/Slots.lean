import ComponentEdit.Buffer.Edit
import ComponentEdit.Proofs.Text.Offsets
import Mathlib.Logic.Function.Basic

/-!
# Slots

The plain model of an edited text. Every offset of the base has a text to its left
and a text to its right, and every character has a body, at first itself. An edit
writes to the slots it names; replacing a range empties the slots that belong to it.
`Slots.render` reads the slots in ascending order. It is a row of stretches, one
for each character (`renderFrom_eq`), and a stretch without attached text inside is
its bodies between the two outer slots (`stretch_of_quiet`); a stretch that is copied is
the text itself between them (`stretch_copied`).
-/

namespace ComponentEdit
set_option autoImplicit false

/-- What is shown at each offset of a base text. -/
structure Slots where
  left : Nat → Text
  right : Nat → Text
  /-- What stands in place of the character that starts at an offset. -/
  body : Nat → Text

namespace Slots

/-- Nothing attached, every character itself. -/
def ofText (t : Text) : Slots := { left := fun _ => [], right := fun _ => [], body := Text.charAt t }

/-- The slots from `i` on, where the text `t` starts. -/
def renderFrom (m : Slots) : Nat → Text → Text
  | i, [] => m.left i ++ m.right i
  | i, c :: t => m.left i ++ m.right i ++ m.body i ++ m.renderFrom (i + c.utf8Size) t

/-- The slots of a base text in ascending order. -/
def render (m : Slots) (base : Text) : Text := m.renderFrom 0 base

/-- Change the text to the left of `i`. -/
def attachLeft (m : Slots) (i : Nat) (f : Text → Text) : Slots :=
  { m with left := Function.update m.left i (f (m.left i)) }

/-- Change the text to the right of `i`. -/
def attachRight (m : Slots) (i : Nat) (f : Text → Text) : Slots :=
  { m with right := Function.update m.right i (f (m.right i)) }

/-- Put `content` in place of the characters of a range. The slots that belong to
the range are emptied: to the left of its offsets behind the start, and to the right
of its offsets before the stop. -/
def replace (m : Slots) (start stop : Nat) (content : Text) : Slots :=
  { left := fun i => if start < i ∧ i ≤ stop then [] else m.left i
    right := fun i => if start ≤ i ∧ i < stop then [] else m.right i
    body := fun i => if i = start then content else if start < i ∧ i < stop then [] else m.body i }

/-- The effect of an edit of a base of `size` bytes. -/
def apply (size : Nat) (m : Slots) : Edit → Slots
  | .append content => m.attachRight size (· ++ content)
  | .prepend content => m.attachLeft 0 (content ++ ·)
  | .appendLeft i content => m.attachLeft i (· ++ content)
  | .prependLeft i content => m.attachLeft i (content ++ ·)
  | .appendRight i content => m.attachRight i (· ++ content)
  | .prependRight i content => m.attachRight i (content ++ ·)
  | .overwrite start stop content _ => m.replace start stop content
  | .remove start stop => if start = stop then m else m.replace start stop []

/-- What the characters of `t`, which starts at `i`, show with the text around
them, but for the outermost slots. -/
def stretch (m : Slots) : Nat → Text → Text
  | _, [] => []
  | i, c :: t =>
    m.right i ++ m.body i ++ m.left (i + c.utf8Size) ++ m.stretch (i + c.utf8Size) t

/-- The bodies of the characters of `t`, which starts at `i`. -/
def bodies (m : Slots) : Nat → Text → Text
  | _, [] => []
  | i, c :: t => m.body i ++ m.bodies (i + c.utf8Size) t

variable {m : Slots} {i : Nat}

/-- The slots in order are the outer ones around the stretch between them. -/
theorem renderFrom_eq (m : Slots) (i : Nat) (t : Text) :
    m.renderFrom i t = m.left i ++ m.stretch i t ++ m.right (i + Text.byteSize t) := by
  induction t generalizing i with
  | nil => simp [renderFrom, stretch]
  | cons c t ih => simp [renderFrom, stretch, ih, Nat.add_assoc]

theorem stretch_append (m : Slots) (i : Nat) (s t : Text) :
    m.stretch i (s ++ t) = m.stretch i s ++ m.stretch (i + Text.byteSize s) t := by
  induction s generalizing i with
  | nil => simp [stretch]
  | cons c s ih => simp [stretch, ih, Nat.add_assoc]

/-- A stretch with nothing attached inside shows its bodies between its outer slots. -/
theorem stretch_of_quiet {t : Text} (ne : t ≠ [])
    (quiet : ∀ j, i < j → j < i + Text.byteSize t → m.left j = [] ∧ m.right j = []) :
    m.stretch i t = m.right i ++ m.bodies i t ++ m.left (i + Text.byteSize t) := by
  induction t generalizing i with
  | nil => exact absurd rfl ne
  | cons c t ih =>
    by_cases last : t = []
    · simp [last, stretch, bodies]
    · have size := Text.byteSize_pos last
      have pos := c.utf8Size_pos
      have here := quiet (i + c.utf8Size) (by omega) (by simp only [Text.byteSize_cons]; omega)
      have rest := ih (i := i + c.utf8Size) last fun j lo hi =>
        quiet j (by omega) (by simp only [Text.byteSize_cons]; omega)
      simp [stretch, bodies, rest, here, Nat.add_assoc]

/-- Bodies that are the characters themselves show the text. -/
theorem bodies_of_copied {t : Text}
    (own : ∀ k < Text.byteSize t, m.body (i + k) = Text.charAt t k) : m.bodies i t = t := by
  induction t generalizing i with
  | nil => rfl
  | cons c t ih =>
    have pos := c.utf8Size_pos
    have first := own 0 (by simp only [Text.byteSize_cons]; omega)
    have rest := ih (i := i + c.utf8Size) fun k lt => by
      have step := own (c.utf8Size + k) (by simp only [Text.byteSize_cons]; omega)
      have shift := Text.charAt_append_add [c] t k
      simp only [Text.byteSize_cons, Text.byteSize_nil, Nat.add_zero, List.cons_append,
        List.nil_append] at shift
      rw [Nat.add_assoc, step, shift]
    simp only [Nat.add_zero] at first
    simp [bodies, rest, first]

theorem bodies_of_blank {t : Text} (blank : ∀ j, i ≤ j → j < i + Text.byteSize t → m.body j = []) :
    m.bodies i t = [] := by
  induction t generalizing i with
  | nil => rfl
  | cons c t ih =>
    have pos := c.utf8Size_pos
    have first := blank i (by omega) (by simp only [Text.byteSize_cons]; omega)
    have rest := ih (i := i + c.utf8Size) fun j lo hi =>
      blank j (by omega) (by simp only [Text.byteSize_cons]; omega)
    simp [bodies, first, rest]

/-- When only the first body is left, it is all that is shown. -/
theorem bodies_of_replaced {t : Text} (ne : t ≠ [])
    (blank : ∀ j, i < j → j < i + Text.byteSize t → m.body j = []) : m.bodies i t = m.body i := by
  cases t with
  | nil => exact absurd rfl ne
  | cons c t =>
    have pos := c.utf8Size_pos
    have rest : m.bodies (i + c.utf8Size) t = [] := bodies_of_blank fun j lo hi =>
      blank j (by omega) (by simp only [Text.byteSize_cons]; omega)
    simp [bodies, rest]

/-- A part of the base that is copied, with nothing attached inside. -/
theorem stretch_copied {t : Text} {j : Nat} (hi : Text.isBoundary t i = true)
    (hj : Text.isBoundary t j = true) (lt : i < j)
    (quiet : ∀ k, i < k → k < j → m.left k = [] ∧ m.right k = [])
    (own : ∀ k, i ≤ k → k < j → m.body k = Text.charAt t k) :
    m.stretch i (Text.slice t i j) = m.right i ++ Text.slice t i j ++ m.left j := by
  have stop := Text.add_byteSize_slice hi hj (Nat.le_of_lt lt)
  have copied : m.bodies i (Text.slice t i j) = Text.slice t i j := bodies_of_copied fun k hk => by
    rw [own (i + k) (by omega) (by omega), Text.charAt_slice hi hj (by omega)]
  rw [stretch_of_quiet (Text.slice_ne_nil hi hj lt) (by rw [stop]; exact quiet), copied, stop]

end Slots

end ComponentEdit
