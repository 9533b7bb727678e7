import ComponentEdit.Proofs.Buffer.Tiling
import Mathlib.Data.List.TakeWhile

/-!
# Edits as cuts and a change

An edit is checked, then it cuts at its offsets, then it makes one change of the buffer
(`Edit.apply_eq`). Whether a cut is refused, and why, does not depend on the cuts that were made
before it (`Buffer.Tiled.obstacle?_divide`). So the refusal of an edit can be told from the buffer
it is applied to (`Edit.refusal_apply`), and what it leaves is a change behind some cuts, whether it
is accepted or not (`Edit.left_apply`): a refused edit changes nothing, and keeps the cuts that it
got to make.
-/

namespace ComponentEdit
set_option autoImplicit false

theorem Chunk.crosses_eq_false {c : Chunk} {i : Nat} :
    c.crosses i = false ↔ i ≤ c.start ∨ c.stop ≤ i := by
  rw [← Bool.not_eq_true, crosses_iff]
  omega

/-- What is done to a buffer that is cut where it has to be. -/
inductive Change where
  | nothing
  | front (f : Text → Text)
  | back (f : Text → Text)
  | left (i : Nat) (f : Text → Text)
  | right (i : Nat) (f : Text → Text)
  | range (start stop : Nat) (forward : start < stop) (content : Text) (options : OverwriteMode)

namespace Change

/-- The offsets at which a buffer has to be cut for a change, in order. -/
def cuts : Change → List Nat
  | nothing | front _ | back _ => []
  | left i _ | right i _ => [i]
  | range start stop _ _ _ => [start, stop]

/-- Carry out a change. -/
def run (c : Change) (b : Buffer) : Buffer :=
  match c with
  | nothing => b
  | front f => { b with front := f b.front }
  | back f => { b with back := f b.back }
  | left i f => b.attachLeft i f
  | right i f => b.attachRight i f
  | range start stop _ content options => b.replaceChunks start stop content options

end Change

namespace Buffer

/-- Cut at some offsets, one after the other, and go on, or be refused with the cuts made so far. -/
def atCuts (b : Buffer) : List Nat → (Buffer → Attempt Buffer) → Attempt Buffer
  | [], next => next b
  | i :: is, next => b.atCut i fun b => b.atCuts is next

/-- The buffer with the chunks across some offsets in two parts each. -/
def divideAll (b : Buffer) (is : List Nat) : Buffer := is.foldl divide b

/-- Why a cut is refused, if it is. -/
def obstacle? (b : Buffer) (i : Nat) : Option Error :=
  match b.cut i with
  | .ok _ => none
  | .error err => some err

end Buffer

namespace Edit

/-- The change that an edit makes, if it is accepted. -/
def change : Edit → Change
  | .append content => .back (· ++ content)
  | .prepend content => .front (content ++ ·)
  | .appendLeft i content => .left i (· ++ content)
  | .prependLeft i content => .left i (content ++ ·)
  | .appendRight i content => .right i (· ++ content)
  | .prependRight i content => .right i (content ++ ·)
  | .overwrite start stop content options =>
    if forward : start < stop then .range start stop forward content options else .nothing
  | .remove start stop =>
    if forward : start < stop then .range start stop forward [] {} else .nothing

/-- Why an edit is refused before it cuts, if it is. -/
def objection? (b : Buffer) : Edit → Option Error
  | .overwrite start stop _ _ =>
    match b.checkRange start stop with
    | .error err => some err
    | .ok () => if start = stop then some (.zeroLengthOverwrite start) else none
  | .remove start stop =>
    match b.checkRange start stop with
    | .error err => some err
    | .ok () => none
  | _ => none

/-- Why an edit is refused, if it is. -/
def obstacle? (b : Buffer) (e : Edit) : Option Error :=
  (e.objection? b).or (e.change.cuts.findSome? b.obstacle?)

/-- The cuts that an edit gets to make: those in front of the first one that is refused. -/
def cutsMade (b : Buffer) (e : Edit) : List Nat :=
  if (e.objection? b).isSome then [] else e.change.cuts.takeWhile fun i => (b.obstacle? i).isNone

/-- The change that an edit gets to make. -/
def changeMade (b : Buffer) (e : Edit) : Change :=
  if (e.obstacle? b).isSome then .nothing else e.change

/-- An edit is a check, cuts and a change. -/
theorem apply_eq (e : Edit) (b : Buffer) :
    e.apply b = match e.objection? b with
      | some err => .refused b err
      | none => b.atCuts e.change.cuts fun b => .done (e.change.run b) := by
  cases e with
  | overwrite start stop content options =>
    simp only [apply, Buffer.overwrite, objection?]
    cases check : b.checkRange start stop with
    | error err => rfl
    | ok u =>
      have le := (Buffer.checkRange_eq_ok.1 check).1
      by_cases eq : start = stop
      · simp [eq]
      · have forward : start < stop := by omega
        simp [eq, change, forward, Change.cuts, Change.run, Buffer.atCuts]
  | remove start stop =>
    simp only [apply, Buffer.remove, objection?]
    cases check : b.checkRange start stop with
    | error err => rfl
    | ok u =>
      have le := (Buffer.checkRange_eq_ok.1 check).1
      by_cases eq : start = stop
      · simp [eq, change, Change.cuts, Change.run, Buffer.atCuts]
      · have forward : start < stop := by omega
        simp [eq, change, forward, Change.cuts, Change.run, Buffer.atCuts]
  | _ => rfl

end Edit

namespace Buffer
variable {b b' : Buffer} {i j : Nat}

@[simp] theorem divideAll_nil (b : Buffer) : b.divideAll [] = b := rfl

@[simp] theorem divideAll_cons (b : Buffer) (i : Nat) (is : List Nat) :
    b.divideAll (i :: is) = (b.divide i).divideAll is := rfl

theorem divide_base (b : Buffer) (i : Nat) : (b.divide i).base = b.base := rfl

theorem divideAll_base (b : Buffer) (is : List Nat) : (b.divideAll is).base = b.base := by
  induction is generalizing b with
  | nil => rfl
  | cons i is ih => exact ih (b.divide i)

theorem Parted.divideAll (h : b.Parted i) (is : List Nat) : (b.divideAll is).Parted i := by
  induction is generalizing b with
  | nil => exact h
  | cons j is ih => exact ih (h.divide j)

theorem parted_divideAll (b : Buffer) {is : List Nat} (mem : i ∈ is) :
    (b.divideAll is).Parted i := by
  induction is generalizing b with
  | nil => simp at mem
  | cons j is ih =>
    rcases List.mem_cons.1 mem with rfl | mem
    · exact (parted_divide b i).divideAll is
    · exact ih (b.divide j) mem

/-- A cut either goes through or meets its obstacle. -/
theorem Tiled.cut_eq (h : b.Tiled) (i : Nat) :
    b.cut i = match b.obstacle? i with
      | some err => .error err
      | none => .ok (b.divide i) := by
  unfold obstacle?
  cases hc : b.cut i with
  | error err => rfl
  | ok b' => rw [(h.cut_eq_ok.1 hc).2.2]

/-- A cut meets no obstacle where every chunk across the offset can be divided. -/
theorem Tiled.obstacle?_eq_none (h : b.Tiled) : b.obstacle? i = none ↔
    Text.isBoundary b.base i = true ∧
      ∀ c ∈ b.chunks, c.crosses i = true → c.body.isDivisible = true := by
  constructor
  · intro free
    have ok : b.cut i = .ok (b.divide i) := by rw [h.cut_eq, free]
    obtain ⟨hi, hd, -⟩ := h.cut_eq_ok.1 ok
    exact ⟨hi, hd⟩
  · rintro ⟨hi, hd⟩
    rw [obstacle?, cut_of_divisible hi hd]

/-- At a boundary the obstacle is the chunk across it. -/
theorem Tiled.obstacle?_of_crosses (h : b.Tiled) (hi : Text.isBoundary b.base i = true) {c : Chunk}
    (hc : c ∈ b.chunks) (cross : c.crosses i = true) (hd : c.body.isDivisible = false) :
    b.obstacle? i = some (b.splitError c i) := by
  rw [obstacle?, h.cut_of_not_divisible hi hc cross hd]

/-- A cut at a boundary is refused only by a chunk that cannot be divided. -/
theorem Tiled.exists_solid (h : b.Tiled) (hi : Text.isBoundary b.base i = true)
    (met : b.obstacle? i ≠ none) :
    ∃ c ∈ b.chunks, c.crosses i = true ∧ c.body.isDivisible = false := by
  simpa [h.obstacle?_eq_none, hi] using met

/-- Away from the boundaries the check of the offset is the obstacle. -/
theorem obstacle?_of_not_boundary (hi : Text.isBoundary b.base i = false)
    (base : b'.base = b.base) : b'.obstacle? i = b.obstacle? i := by
  have check : b'.checkIndex i = b.checkIndex i := by simp only [checkIndex, base]
  cases hc : b.checkIndex i with
  | ok u => simp [checkIndex_eq_ok.1 hc] at hi
  | error err =>
    rw [hc] at check
    simp [obstacle?, cut, hc, check, bind, Except.bind]

theorem Tiled.boundary_of_obstacle? (h : b.Tiled) (ok : b.obstacle? i = none) :
    Text.isBoundary b.base i = true := (h.obstacle?_eq_none.1 ok).1

/-- A part of a chunk that can be divided can be divided. -/
theorem isDivisible_of_mem_divide {c d : Chunk} (hd : d ∈ c.divide i)
    (divisible : c.body.isDivisible = true) : d.body.isDivisible = true := by
  unfold Chunk.divide at hd
  split at hd
  · simp only [List.mem_cons, List.not_mem_nil, or_false] at hd
    rcases hd with rfl | rfl <;>
      cases hb : c.body <;> simp [Chunk.left, Chunk.right, Body.left, Body.right, hb, Body.isDivisible]
  · rw [List.mem_singleton.1 hd]
    exact divisible

/-- A cut takes no obstacle away and puts none up. -/
theorem Tiled.obstacle?_divide (h : b.Tiled) (ok : b.obstacle? i = none) (j : Nat) :
    (b.divide i).obstacle? j = b.obstacle? j := by
  obtain ⟨hi, hd⟩ := h.obstacle?_eq_none.1 ok
  have tiled := h.divide hi
  cases hj : Text.isBoundary b.base j with
  | false => exact obstacle?_of_not_boundary hj rfl
  | true =>
    by_cases free : b.obstacle? j = none
    · rw [free, tiled.obstacle?_eq_none]
      refine ⟨hj, fun d hdm cross => ?_⟩
      obtain ⟨c, hc, part⟩ := List.mem_flatMap.1 hdm
      exact isDivisible_of_mem_divide part
        ((h.obstacle?_eq_none.1 free).2 c hc (Chunk.crosses_of_mem_divide part cross))
    · obtain ⟨c, hc, cross, solid⟩ := h.exists_solid hj free
      -- a chunk that cannot be divided does not lie across the cut that went through
      have apart : c.crosses i = false := by
        cases across : c.crosses i with
        | false => rfl
        | true => simp [hd c hc across] at solid
      have kept : c ∈ (b.divide i).chunks :=
        List.mem_flatMap.2 ⟨c, hc, by simp [Chunk.divide, apart]⟩
      rw [h.obstacle?_of_crosses hj hc cross solid, tiled.obstacle?_of_crosses hj kept cross solid]
      rfl

/-- Cuts that meet no obstacle keep the invariant and all obstacles. -/
theorem Tiled.divideAll (h : b.Tiled) {is : List Nat} (ok : ∀ i ∈ is, b.obstacle? i = none) :
    (b.divideAll is).Tiled ∧ ∀ j, (b.divideAll is).obstacle? j = b.obstacle? j := by
  induction is generalizing b with
  | nil => exact ⟨h, fun _ => rfl⟩
  | cons i is ih =>
    have first := ok i List.mem_cons_self
    have same := h.obstacle?_divide first
    obtain ⟨tiled, rest⟩ := ih (h.divide (h.boundary_of_obstacle? first)) fun j hj => by
      rw [same]
      exact ok j (List.mem_cons_of_mem _ hj)
    exact ⟨tiled, fun j => (rest j).trans (same j)⟩

/-- Cuts one after the other end at the first obstacle. -/
theorem Tiled.atCuts_eq (h : b.Tiled) (is : List Nat) (next : Buffer → Attempt Buffer) :
    b.atCuts is next = match is.findSome? b.obstacle? with
      | some err => .refused (b.divideAll (is.takeWhile fun i => (b.obstacle? i).isNone)) err
      | none => next (b.divideAll is) := by
  induction is generalizing b with
  | nil => rfl
  | cons i is ih =>
    rw [atCuts, atCut, h.cut_eq]
    cases first : b.obstacle? i with
    | some err => simp [first]
    | none =>
      have same : (b.divide i).obstacle? = b.obstacle? := funext (h.obstacle?_divide first)
      simp only [ih (h.divide (h.boundary_of_obstacle? first)), same, List.findSome?_cons, first,
        List.takeWhile_cons, Option.isNone_none, if_true, divideAll_cons]

end Buffer

namespace Edit
variable {b b' : Buffer} {e : Edit}

/-- An edit is refused for its first obstacle. -/
theorem refusal_apply (h : b.Tiled) (e : Edit) : (e.apply b).refusal? = e.obstacle? b := by
  rw [apply_eq, obstacle?]
  cases e.objection? b with
  | some err => rfl
  | none =>
    rw [h.atCuts_eq]
    cases e.change.cuts.findSome? b.obstacle? <;> rfl

/-- What an edit leaves, accepted or refused, is a change behind cuts. -/
theorem left_apply (h : b.Tiled) (e : Edit) :
    (e.apply b).left = (e.changeMade b).run (b.divideAll (e.cutsMade b)) := by
  rw [apply_eq, changeMade, cutsMade, obstacle?]
  cases e.objection? b with
  | some err => rfl
  | none =>
    rw [h.atCuts_eq]
    cases hf : e.change.cuts.findSome? b.obstacle? with
    | some err => rfl
    | none =>
      have all : (e.change.cuts.takeWhile fun i => (b.obstacle? i).isNone) = e.change.cuts := by
        rw [List.takeWhile_eq_self_iff]
        simpa [List.findSome?_eq_none_iff] using hf
      simp [all]

theorem objection?_congr (base : b'.base = b.base) (e : Edit) :
    e.objection? b' = e.objection? b := by
  have check : ∀ start stop, b'.checkRange start stop = b.checkRange start stop := by
    intro start stop
    simp only [Buffer.checkRange, Buffer.checkIndex, base]
  cases e <;> simp only [objection?, check]

/-- What an edit meets is told by the base and by the obstacles at its cuts. -/
theorem outcome_congr (base : b'.base = b.base)
    (same : ∀ i ∈ e.change.cuts, b'.obstacle? i = b.obstacle? i) :
    e.obstacle? b' = e.obstacle? b ∧ e.cutsMade b' = e.cutsMade b ∧
      e.changeMade b' = e.changeMade b := by
  have told : e.change.cuts.findSome? b'.obstacle? = e.change.cuts.findSome? b.obstacle? ∧
      (e.change.cuts.takeWhile fun i => (b'.obstacle? i).isNone) =
        e.change.cuts.takeWhile fun i => (b.obstacle? i).isNone := by
    generalize e.change.cuts = is at same
    induction is with
    | nil => exact ⟨rfl, rfl⟩
    | cons i is ih =>
      obtain ⟨first, made⟩ := ih fun j hj => same j (List.mem_cons_of_mem _ hj)
      simp only [List.findSome?_cons, List.takeWhile_cons, same i List.mem_cons_self, first, made,
        and_self]
  have obstacle : e.obstacle? b' = e.obstacle? b := by
    rw [obstacle?, obstacle?, objection?_congr base, told.1]
  exact ⟨obstacle, by rw [cutsMade, cutsMade, objection?_congr base, told.2],
    by rw [changeMade, changeMade, obstacle]⟩

/-- The cuts that an edit makes meet no obstacle and are cuts of its change. -/
theorem of_mem_cutsMade {i : Nat} (mem : i ∈ e.cutsMade b) :
    i ∈ e.change.cuts ∧ b.obstacle? i = none := by
  unfold cutsMade at mem
  split at mem
  · simp at mem
  · exact ⟨(List.takeWhile_sublist _).subset mem, by simpa using List.mem_takeWhile_imp mem⟩

/-- What an edit changes lies between cuts that it made. -/
theorem cuts_changeMade {i : Nat} (mem : i ∈ (e.changeMade b).cuts) : i ∈ e.cutsMade b := by
  unfold changeMade at mem
  split at mem
  · simp [Change.cuts] at mem
  · rename_i free
    simp only [obstacle?, Bool.not_eq_true, Option.isSome_eq_false_iff, Option.isNone_iff_eq_none,
      Option.or_eq_none_iff, List.findSome?_eq_none_iff] at free
    rw [cutsMade, free.1]
    have all : (e.change.cuts.takeWhile fun i => (b.obstacle? i).isNone) = e.change.cuts :=
      List.takeWhile_eq_self_iff.2 fun j hj => by simp [free.2 j hj]
    simpa [all] using mem

end Edit

end ComponentEdit
