import ComponentEdit.Proofs.Buffer.Refinement

/-!
# Buffers refine slots

Without replacements that keep attached text, a layout changes its slots as the plain
model does (`toSlots_apply`). So whatever chunks a buffer has been cut into, it renders
what the slots of the plain model hold, and accepts what the layout does
(`render_run_eq_slots`).
-/

namespace ComponentEdit
set_option autoImplicit false

/-- Whether an edit clears what is attached to the text that it replaces. -/
def Edit.clears : Edit → Bool
  | .overwrite _ _ _ options => !options.contentOnly
  | _ => true

namespace Layout
variable {m : Layout} {base : Text}

theorem toSlots_overwrite (m : Layout) (start stop : Nat) (content : Text)
    {options : OverwriteMode} (clears : options.contentOnly = false) :
    (m.overwrite start stop content options).toSlots = m.toSlots.replace start stop content := by
  simp [overwrite, replace, Slots.replace, clears, mark]

/-- The slots change as in the plain model, if the edit is accepted. -/
theorem toSlots_apply (m : Layout) (base : Text) {e : Edit} (clears : e.clears = true) :
    (m.apply base e).toSlots =
      if m.accepts base e = true then m.toSlots.apply (Text.byteSize base) e else m.toSlots := by
  unfold apply
  split
  · cases e with
    | overwrite start stop content options =>
      exact toSlots_overwrite m start stop content (by simpa [Edit.clears] using clears)
    | remove start stop =>
      simp only [effect, Slots.apply]
      split
      · rfl
      · exact toSlots_overwrite m start stop [] rfl
    | _ => rfl
  · cases e with
    | overwrite start stop content options => simp only [halfway]; split <;> rfl
    | remove start stop => simp only [halfway]; split <;> rfl
    | _ => rfl

end Layout

namespace Slots

/-- The slots beside a buffer through a sequence of edits: those that the buffer accepts
take effect, the others change nothing. -/
def follow (b : Buffer) (m : Slots) : List Edit → Slots
  | [] => m
  | e :: edits =>
    follow (e.apply b).left
      (if (e.apply b).accepted = true then m.apply (Text.byteSize b.base) e else m) edits

end Slots

/-- The layout of a buffer keeps the slots of the plain model through a run. -/
theorem Buffer.LaidOut.toSlots_run {b : Buffer} {m : Layout} (h : b.LaidOut m) (edits : List Edit)
    (clears : ∀ e ∈ edits, e.clears = true) :
    (m.run b.base edits).toSlots = Slots.follow b m.toSlots edits := by
  induction edits generalizing b m with
  | nil => rfl
  | cons e edits ih =>
    obtain ⟨accepted, laid⟩ := h.apply e
    have step := m.toSlots_apply b.base (clears e List.mem_cons_self)
    have rest := ih laid fun x hx => clears x (List.mem_cons_of_mem _ hx)
    rw [apply_base, step, ← accepted] at rest
    exact rest

/-- **A buffer refines the slots.** From any text that is not empty, after any edits that clear
what they replace, accepted or refused, the chunks render what the slots hold. Which edit is
accepted next is told by the layout that the same edits leave. -/
theorem render_run_eq_slots (t : Text) (ne : t ≠ []) (edits : List Edit)
    (clears : ∀ e ∈ edits, e.clears = true) :
    ((Buffer.ofText t).run edits).render =
        (Slots.follow (.ofText t) (.ofText t) edits).render t ∧
      ∀ e : Edit, (e.apply ((Buffer.ofText t).run edits)).accepted =
        ((Layout.ofText t).run t edits).accepts t e := by
  have laid := (Buffer.laidOut_ofText ne).run edits
  have slots := (Buffer.laidOut_ofText ne).toSlots_run edits clears
  have base : ((Buffer.ofText t).run edits).base = t := Buffer.run_base _ edits
  have initial : (Layout.ofText t).toSlots = Slots.ofText t := rfl
  constructor
  · rw [laid.render_eq, base, slots, initial]
  · intro e
    have accepted := (laid.apply e).1
    rw [base] at accepted
    exact accepted

/-- A replacement clears what was attached to the range, and a cut inside it is refused, one behind
it is not. -/
theorem render_run_eq_slots_abc :
    let edits : List Edit := [.appendLeft 2 ['x'], .overwrite 0 2 ['Z'] {}, .appendRight 1 ['y'],
      .prepend ['<'], .remove 2 3, .append ['>']]
    let b := (Buffer.ofText ['a', 'b', 'c']).run edits
    b.render = (Slots.follow (.ofText ['a', 'b', 'c']) (.ofText ['a', 'b', 'c']) edits).render
        ['a', 'b', 'c'] ∧
      b.render = ['<', 'Z', '>'] ∧
      (Edit.apply (.appendRight 1 ['y']) b).accepted = false ∧
      (Edit.apply (.appendRight 2 ['y']) b).accepted = true := by
  intro edits b
  obtain ⟨render, accepts⟩ := render_run_eq_slots ['a', 'b', 'c'] (by decide) edits (by decide)
  exact ⟨render, by decide +kernel, (accepts _).trans (by decide +kernel),
    (accepts _).trans (by decide +kernel)⟩

end ComponentEdit
