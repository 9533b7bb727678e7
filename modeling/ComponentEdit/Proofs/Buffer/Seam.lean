import ComponentEdit.Proofs.Buffer.Window

/-!
# Seams

What edits have attached at the start of a text is its seam. A text that has characters
shows it in front of the first one; a hollow text, which has none, shows nothing else. The
seam can be told from the edits alone (`Seam.step`): it follows the slots of a layout
(`Layout.seam_effect`, `Layout.seam_effect_within`), and of a hollow text it is all there is
(`hollow_apply`).
-/

namespace ComponentEdit
set_option autoImplicit false

/-- The texts at the start of a text. In a hollow text, what is put in front of everything
or behind everything is kept apart from what is attached at the offset. -/
structure Seam where
  front : Text := []
  left : Text := []
  right : Text := []
  back : Text := []
deriving DecidableEq, Repr

namespace Seam

/-- The effect of an accepted edit. -/
def step (hollow : Bool) (s : Seam) : Edit → Seam
  | .append content => if hollow then { s with back := s.back ++ content } else s
  | .prepend content =>
    if hollow then { s with front := content ++ s.front } else { s with left := content ++ s.left }
  | .appendLeft i content => if i = 0 then { s with left := s.left ++ content } else s
  | .prependLeft i content => if i = 0 then { s with left := content ++ s.left } else s
  | .appendRight i content => if i = 0 then { s with right := s.right ++ content } else s
  | .prependRight i content => if i = 0 then { s with right := content ++ s.right } else s
  | .overwrite start _ _ options =>
    if start = 0 ∧ options.contentOnly = false then { s with right := [] } else s
  | .remove start stop => if start = 0 ∧ start ≠ stop then { s with right := [] } else s

/-- The seam after accepted edits. -/
def run (hollow : Bool) (s : Seam) (edits : List Edit) : Seam := edits.foldl (step hollow) s

/-- What is shown of a seam. -/
def text (hollow : Bool) (s : Seam) : Text :=
  if hollow then s.front ++ s.right ++ s.left ++ s.back else s.left ++ s.right

/-- The buffer of a text without characters that has the seam `s`. -/
def buffer (s : Seam) (filename : Option String) : Buffer where
  base := []
  filename := filename
  front := s.front
  back := s.back
  chunks := [{ start := 0, stop := 0, before := s.right, body := .copied [], after := s.left }]

variable {s : Seam} {size : Nat} {e : Edit}

theorem render_buffer (s : Seam) (filename : Option String) :
    (s.buffer filename).render = s.text true := by
  simp [buffer, Buffer.render, Chunk.render, Body.text, text]

/-- Seen from the whole, an edit other than one in front of everything does the same at the
start of a part that has characters. -/
theorem step_within (hsize : size ≠ 0) (other : e.operation ≠ .prepend) (s : Seam) :
    s.step false (e.within ⟨0, size⟩) = s.step false e := by
  cases e with
  | prepend content => exact absurd rfl other
  | append content => simp [Edit.within, step, hsize]
  | _ => simp [Edit.within, step]

theorem run_within (hsize : size ≠ 0) {edits : List Edit}
    (other : ∀ e ∈ edits, e.operation ≠ .prepend) (s : Seam) :
    s.run false (edits.map (Edit.within ⟨0, size⟩)) = s.run false edits := by
  induction edits generalizing s with
  | nil => rfl
  | cons e edits ih =>
    simp only [run, List.map_cons, List.foldl_cons,
      step_within hsize (other e List.mem_cons_self) s]
    exact ih (fun x hx => other x (List.mem_cons_of_mem _ hx)) _

end Seam

namespace Layout
variable {m : Layout} {part : Span} {size : Nat} {e : Edit}

/-- What is attached at an offset. -/
def seam (m : Layout) (i : Nat) : Seam := { left := m.left i, right := m.right i }

theorem Outside.seam {m' : Layout} (out : m.Outside part m') {i : Nat}
    (apart : i < part.start ∨ part.stop < i) : m'.seam i = m.seam i := by
  rw [Layout.seam, out.left i apart, out.right i apart, Layout.seam]

theorem seam_overwrite (m : Layout) {start stop : Nat} (lt : start < stop) (content : Text)
    (options : OverwriteMode) {i : Nat} (le : i ≤ start) :
    (m.overwrite start stop content options).seam i =
      if start = i ∧ options.contentOnly = false then { m.seam i with right := [] }
      else m.seam i := by
  have before : ¬(start < i ∧ i ≤ stop) := by omega
  by_cases first : start = i
  · subst first
    by_cases keep : options.contentOnly = true <;>
      simp [overwrite, replace, seam, mark, lt, keep]
  · have behind : ¬(start ≤ i ∧ i < stop) := by omega
    simp [overwrite, replace, seam, mark, first, before, behind]

/-- The seam at the start of a part, after an edit of the part. -/
theorem seam_effect_within (m : Layout) (part : Span) (whole : Nat) (le : part.start ≤ part.stop)
    (fits : e.Fits part.length) :
    (m.effect whole (e.within part)).seam part.start =
      (m.seam part.start).step false (e.within ⟨0, part.length⟩) := by
  have last : part.start = part.stop ↔ part.length = 0 := by unfold Span.length; omega
  cases e with
  | append content =>
    simp only [Edit.within, effect, seam, Seam.step, attachRight_right, last]
    split <;> simp_all [mark, attachRight, Slots.attachRight]
  | prepend content => simp [Edit.within, effect, seam, Seam.step, mark, attachRight, Slots.attachRight]
  | appendLeft i content | prependLeft i content =>
    by_cases first : i = 0 <;>
      simp [Edit.within, effect, seam, Seam.step, mark, first, attachLeft,
        Slots.attachLeft]
  | appendRight i content | prependRight i content =>
    by_cases first : i = 0 <;>
      simp [Edit.within, effect, seam, Seam.step, mark, first, attachRight,
        Slots.attachRight]
  | overwrite start stop content options =>
    have lt : part.start + start < part.start + stop := Nat.add_lt_add_left fits.1 _
    simp only [Edit.within, effect, seam_overwrite m lt content options (Nat.le_add_right _ _),
      Seam.step, Nat.zero_add, Nat.add_eq_left]
  | remove start stop =>
    simp only [Edit.within, effect, Nat.add_left_cancel_iff, Seam.step, Nat.zero_add]
    by_cases eq : start = stop
    · simp [eq]
    · have lt : part.start + start < part.start + stop := by have := fits.1; omega
      simp [eq, seam_overwrite m lt [] {} (Nat.le_add_right _ _)]

/-- The seam of a text that has characters, after an edit of it. -/
theorem seam_effect (m : Layout) (hsize : size ≠ 0) (fits : e.Fits size) :
    (m.effect size e).seam 0 = (m.seam 0).step false e := by
  have within := m.seam_effect_within ⟨0, size⟩ size (Nat.zero_le _) fits
  cases e with
  | append content =>
    have apart : 0 ≠ size := Ne.symm hsize
    simp [effect, seam, Seam.step, attachRight, Slots.attachRight, Function.update_of_ne apart]
  | prepend content => simp [effect, seam, Seam.step, attachLeft, Slots.attachLeft]
  | appendLeft i content | prependLeft i content | appendRight i content | prependRight i content =>
    simpa [Edit.within, Span.length] using within
  | overwrite start stop content options | remove start stop =>
    simpa [Edit.within, Span.length] using within

end Layout

section Hollow
variable {s : Seam} {filename : Option String}

theorem hollow_atCut (s : Seam) (filename : Option String) (i : Nat)
    (next : Buffer → Attempt Buffer) :
    (s.buffer filename).atCut 0 next = next (s.buffer filename) ∧
      (i ≠ 0 → ((s.buffer filename).atCut i next).accepted = false) := by
  have here : (s.buffer filename).cut 0 = .ok (s.buffer filename) := by
    simp [Buffer.cut, Buffer.checkIndex, Seam.buffer, Chunk.crosses, bind, Except.bind]
  refine ⟨by simp [Buffer.atCut, here], fun pos => ?_⟩
  have outside : Text.isBoundary (s.buffer filename).base i = false := by
    rw [← Bool.not_eq_true]
    intro inside
    exact pos (Nat.le_zero.1 (Text.le_byteSize_of_isBoundary inside))
  obtain ⟨err, refused⟩ := Buffer.cut_of_not_boundary outside
  simp [Buffer.atCut, refused]

/-- A hollow text accepts the edits that fit it, and its seam is what is left of them. -/
theorem hollow_apply (s : Seam) (filename : Option String) (e : Edit) :
    ((e.apply (s.buffer filename)).accepted = true ↔ e.Fits 0) ∧
      (e.Fits 0 → (e.apply (s.buffer filename)).left = (s.step true e).buffer filename) := by
  -- an insertion is accepted at the only offset there is
  have insertion : ∀ {i : Nat} {next : Buffer → Attempt Buffer} {s' : Seam},
      (i = 0 → next (s.buffer filename) = .done (s'.buffer filename)) →
      (((s.buffer filename).atCut i next).accepted = true ↔ i ≤ 0) ∧
        (i ≤ 0 → ((s.buffer filename).atCut i next).left =
          (if i = 0 then s' else s).buffer filename) := by
    intro i next s' done
    obtain ⟨here, refused⟩ := hollow_atCut s filename i next
    by_cases first : i = 0
    · subst first
      simp [here, done rfl]
    · have : ¬i ≤ 0 := by omega
      simp [refused first, this]
  cases e with
  | append content | prepend content => exact ⟨⟨fun _ => trivial, fun _ => rfl⟩, fun _ => rfl⟩
  | appendLeft i content | prependLeft i content | appendRight i content | prependRight i content =>
    exact insertion fun first => by
      subst first
      rfl
  | overwrite start stop content options =>
    have none : ¬Edit.Fits 0 (.overwrite start stop content options) := by
      rintro ⟨lt, le⟩
      omega
    refine ⟨⟨fun ok => ?_, fun fits => absurd fits none⟩, fun fits => absurd fits none⟩
    simp only [Edit.apply, Buffer.overwrite] at ok
    cases hr : (s.buffer filename).checkRange start stop with
    | error err => simp [hr] at ok
    | ok u =>
      have inside := Text.le_byteSize_of_isBoundary (Buffer.checkRange_eq_ok.1 hr).2.2
      have order := (Buffer.checkRange_eq_ok.1 hr).1
      have stop_eq : stop = 0 := Nat.le_zero.1 inside
      have start_eq : start = 0 := by omega
      subst start_eq stop_eq
      simp [hr] at ok
  | remove start stop =>
    simp only [Edit.apply, Buffer.remove]
    cases hr : (s.buffer filename).checkRange start stop with
    | error err =>
      have none : ¬Edit.Fits 0 (.remove start stop) := by
        rintro ⟨le, hi⟩
        have stop_eq : stop = 0 := by omega
        have start_eq : start = 0 := by omega
        have ok : (s.buffer filename).checkRange 0 0 = .ok () :=
          Buffer.checkRange_eq_ok.2 ⟨Nat.le_refl _, rfl, rfl⟩
        simp [start_eq, stop_eq, ok] at hr
      simp [none]
    | ok u =>
      have inside := Text.le_byteSize_of_isBoundary (Buffer.checkRange_eq_ok.1 hr).2.2
      have order := (Buffer.checkRange_eq_ok.1 hr).1
      have stop_eq : stop = 0 := Nat.le_zero.1 inside
      have start_eq : start = 0 := by omega
      subst start_eq stop_eq
      simp [Edit.Fits, Seam.step]

end Hollow

end ComponentEdit
