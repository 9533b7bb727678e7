import ComponentEdit.Proofs.Buffer.Cuts
import Mathlib.Data.Set.Lattice
import Mathlib.Order.CompletePartialOrder

/-!
# Edits at different places commute

The footprint of an edit is the set of places that it may change: bytes of the base, and what is
attached to the left or to the right of an offset (`Edit.footprint`). A change revises each chunk
part by part (`Change.revise`) and leaves the parts alone that its footprint does not have, so
changes with disjoint footprints commute on a buffer that is cut for both (`run_comm`). Cuts commute
with each other (`Tiled.divide_comm`), with the changes that do not lie across them
(`run_divide`), and meet the same obstacles before such a change and after it (`obstacle?_run`).
Whether accepted or refused, an edit is a change behind cuts (`Edit.left_apply`), and so edits with
disjoint footprints commute (`disjoint_edits_commute`).
-/

namespace ComponentEdit
set_option autoImplicit false

/-- A place of the base that an edit can change: what is attached to the left or to the right of
an offset, or the byte at it. -/
inductive Place where
  | left (i : Nat)
  | right (i : Nat)
  | byte (i : Nat)

/-- The places of a range: its bytes, the left sides of the offsets behind its start up to its end,
and the right sides of those from its start on before its end. -/
def Place.ofRange (start stop : Nat) : Set Place
  | .left i => start < i ∧ i ≤ stop
  | .right i => start ≤ i ∧ i < stop
  | .byte i => start ≤ i ∧ i < stop

/-- The places that an edit may change. The ends of the text are none, so what goes there is
taken to lie everywhere. -/
def Edit.footprint : Edit → Set Place
  | .append _ | .prepend _ => Set.univ
  | .appendLeft i _ | .prependLeft i _ => {.left i}
  | .appendRight i _ | .prependRight i _ => {.right i}
  | .overwrite start stop _ _ | .remove start stop => Place.ofRange start stop

namespace Chunk

/-- A change of the parts of a chunk. -/
structure Revision where
  before : Text → Text := id
  body : Body → Body := id
  after : Text → Text := id

/-- Change the parts of a chunk. -/
def Revision.run (r : Revision) (c : Chunk) : Chunk :=
  { c with before := r.before c.before, body := r.body c.body, after := r.after c.after }

/-- Revisions of different parts commute. -/
theorem Revision.run_comm {r s : Revision} (before : r.before = id ∨ s.before = id)
    (body : r.body = id ∨ s.body = id) (after : r.after = id ∨ s.after = id) (c : Chunk) :
    r.run (s.run c) = s.run (r.run c) := by
  have comm : ∀ {α : Type} {f g : α → α}, f = id ∨ g = id → ∀ a, f (g a) = g (f a) := by
    rintro α f g (rfl | rfl) a <;> rfl
  simp only [run, comm before, comm body, comm after]

end Chunk

namespace Change

/-- The places that a change may change. -/
def footprint : Change → Set Place
  | nothing => ∅
  | front _ | back _ => Set.univ
  | left i _ => {.left i}
  | right i _ => {.right i}
  | range start stop _ _ _ => Place.ofRange start stop

/-- What a change makes of a chunk from `start` to `stop`. -/
def revision (start stop : Nat) : Change → Chunk.Revision
  | nothing | front _ | back _ => {}
  | left i f => { after := if stop = i then f else id }
  | right i f => { before := if start = i then f else id }
  | range first last _ content options =>
    if start = first then
      { before := if options.contentOnly then id else fun _ => []
        body := fun _ => .replaced content options.storeName
        after := if options.contentOnly then id else fun _ => [] }
    else if first < start ∧ start < last then
      { before := fun _ => [], body := fun _ => .replaced [] false, after := fun _ => [] }
    else {}

/-- What a change makes of a chunk. -/
def revise (c : Change) (x : Chunk) : Chunk := (c.revision x.start x.stop).run x

/-- What a change makes of the text in front of all chunks. -/
def atFront (b : Buffer) : Change → Text → Text
  | front f => f
  | left i f => if b.chunks.any (·.stop == i) then id else f
  | _ => id

/-- What a change makes of the text behind all chunks. -/
def atBack (b : Buffer) : Change → Text → Text
  | back f => f
  | right i f => if b.chunks.any (·.start == i) then id else f
  | _ => id

/-- A change lies on one side of an offset. -/
def Spares (j : Nat) : Change → Prop
  | range start stop _ _ _ => j ≤ start ∨ stop ≤ j
  | _ => True

variable {b : Buffer} {c d : Change} {x : Chunk} {i j : Nat}

@[simp] theorem start_revise (c : Change) (x : Chunk) : (c.revise x).start = x.start := rfl

@[simp] theorem stop_revise (c : Change) (x : Chunk) : (c.revise x).stop = x.stop := rfl

/-- A change revises each chunk, and the texts in front of all chunks and behind them. -/
theorem run_eq (c : Change) (b : Buffer) :
    c.run b = { b with
      front := c.atFront b b.front
      back := c.atBack b b.back
      chunks := b.chunks.map c.revise } := by
  have unchanged : (∀ x ∈ b.chunks, c.revise x = x) → b.chunks.map c.revise = b.chunks :=
    fun same => (List.map_congr_left same).trans (List.map_id b.chunks)
  cases c with
  | nothing | front f | back f =>
    rw [unchanged fun x _ => rfl]
    rfl
  | left i f =>
    simp only [run, Buffer.attachLeft, atFront, atBack, id]
    by_cases some : b.chunks.any (·.stop == i) = true
    · rw [if_pos some, if_pos some]
      congr 1
      refine List.map_congr_left fun x _ => ?_
      by_cases h : x.stop = i <;> simp [revise, revision, Chunk.Revision.run, h]
    · rw [if_neg some, if_neg some, unchanged]
      intro x hx
      have h : x.stop ≠ i := by
        rintro rfl
        exact some (List.any_eq_true.2 ⟨x, hx, by simp⟩)
      simp [revise, revision, Chunk.Revision.run, h]
  | right i f =>
    simp only [run, Buffer.attachRight, atFront, atBack, id]
    by_cases some : b.chunks.any (·.start == i) = true
    · rw [if_pos some, if_pos some]
      congr 1
      refine List.map_congr_left fun x _ => ?_
      by_cases h : x.start = i <;> simp [revise, revision, Chunk.Revision.run, h]
    · rw [if_neg some, if_neg some, unchanged]
      intro x hx
      have h : x.start ≠ i := by
        rintro rfl
        exact some (List.any_eq_true.2 ⟨x, hx, by simp⟩)
      simp [revise, revision, Chunk.Revision.run, h]
  | range first last forward content options =>
    simp only [run, Buffer.replaceChunks, atFront, atBack, id]
    congr 1
    refine List.map_congr_left fun x _ => ?_
    by_cases h : x.start = first
    · cases hk : options.contentOnly <;>
        simp [revise, revision, Chunk.Revision.run, Chunk.replace, h, hk]
    · by_cases inside : first < x.start ∧ x.start < last <;>
        simp [revise, revision, Chunk.Revision.run, Chunk.blank, Chunk.replace, h, inside]

/-- The text at the start of a chunk is left alone by changes elsewhere. -/
theorem before_revision {start : Nat} (stop : Nat) (out : Place.right start ∉ c.footprint) :
    (c.revision start stop).before = id := by
  cases c with
  | right i f => exact if_neg fun h => out (congrArg Place.right h)
  | range first last forward content options =>
    have h : ¬(first ≤ start ∧ start < last) := out
    have notFirst : start ≠ first := by omega
    have notInside : ¬(first < start ∧ start < last) := by omega
    simp [revision, notFirst, notInside]
  | _ => rfl

/-- The body of a chunk is left alone by changes elsewhere. -/
theorem body_revision {start : Nat} (stop : Nat) (out : Place.byte start ∉ c.footprint) :
    (c.revision start stop).body = id := by
  cases c with
  | range first last forward content options =>
    have h : ¬(first ≤ start ∧ start < last) := out
    have notFirst : start ≠ first := by omega
    have notInside : ¬(first < start ∧ start < last) := by omega
    simp [revision, notFirst, notInside]
  | _ => rfl

/-- The text at the end of a chunk is left alone by changes elsewhere. -/
theorem after_revision {base : Text} (h : x.Placed base)
    (cut : ∀ i ∈ c.cuts, Text.isBoundary base i = true ∧ x.crosses i = false)
    (out : Place.left x.stop ∉ c.footprint) : (c.revision x.start x.stop).after = id := by
  cases c with
  | left i f => exact if_neg fun h => out (congrArg Place.left h)
  | range first last forward content options =>
    obtain ⟨bound, apart⟩ := cut last (by simp [cuts])
    have inside := Text.le_byteSize_of_isBoundary bound
    have long : x.start < x.stop := by
      refine h.forward ?_
      rintro rfl
      simp only [Text.byteSize_nil] at inside
      omega
    have outside : ¬(first < x.stop ∧ x.stop ≤ last) := out
    rw [Chunk.crosses_eq_false] at apart
    have notFirst : x.start ≠ first := by omega
    have notInside : ¬(first < x.start ∧ x.start < last) := by omega
    simp [revision, notFirst, notInside]
  | _ => rfl

/-- The text in front of all chunks is left alone by changes elsewhere. -/
theorem atFront_eq_id (h : b.Tiled)
    (cut : ∀ i ∈ c.cuts, Text.isBoundary b.base i = true ∧ b.Parted i)
    (out : Place.left 0 ∉ c.footprint) : c.atFront b = id := by
  cases c with
  | front f => exact absurd (Set.mem_univ _) out
  | left i f =>
    obtain ⟨bound, parted⟩ := cut i (by simp [cuts])
    have pos : 0 < i := Nat.pos_of_ne_zero fun h => out (congrArg Place.left h.symm)
    obtain ⟨x, hx, stop⟩ := h.exists_stop parted pos (Text.le_byteSize_of_isBoundary bound)
    exact if_pos (List.any_eq_true.2 ⟨x, hx, by simp [stop]⟩)
  | _ => rfl

/-- The text behind all chunks is left alone by changes elsewhere. -/
theorem atBack_eq_id (h : b.Tiled)
    (cut : ∀ i ∈ c.cuts, Text.isBoundary b.base i = true ∧ b.Parted i)
    (out : Place.right (Text.byteSize b.base) ∉ c.footprint) : c.atBack b = id := by
  cases c with
  | back f => exact absurd (Set.mem_univ _) out
  | right i f =>
    obtain ⟨bound, parted⟩ := cut i (by simp [cuts])
    have le := Text.le_byteSize_of_isBoundary bound
    have ne : i ≠ Text.byteSize b.base := fun h => out (congrArg Place.right h.symm)
    obtain ⟨x, hx, start⟩ := h.exists_start parted (by omega)
    exact if_pos (List.any_eq_true.2 ⟨x, hx, by simp [start]⟩)
  | _ => rfl

/-- Where a text is attached does not depend on the changes made before. -/
theorem atFront_run (c d : Change) (b : Buffer) : c.atFront (d.run b) = c.atFront b := by
  rw [run_eq]
  cases c with
  | left i f => simp [atFront, List.any_map, Function.comp_def]
  | _ => rfl

theorem atBack_run (c d : Change) (b : Buffer) : c.atBack (d.run b) = c.atBack b := by
  rw [run_eq]
  cases c with
  | right i f => simp [atBack, List.any_map, Function.comp_def]
  | _ => rfl

/-- Changes at different places commute on a buffer that is cut for both. -/
theorem run_comm (h : b.Tiled)
    (cut : ∀ i ∈ c.cuts, Text.isBoundary b.base i = true ∧ b.Parted i)
    (cut' : ∀ i ∈ d.cuts, Text.isBoundary b.base i = true ∧ b.Parted i)
    (disjoint : Disjoint c.footprint d.footprint) : c.run (d.run b) = d.run (c.run b) := by
  have apart : ∀ p, p ∉ c.footprint ∨ p ∉ d.footprint := by
    intro p
    by_cases hp : p ∈ c.footprint
    · exact .inr (Set.disjoint_left.1 disjoint hp)
    · exact .inl hp
  have comm : ∀ {f g : Text → Text}, f = id ∨ g = id → ∀ t, f (g t) = g (f t) := by
    rintro f g (rfl | rfl) t <;> rfl
  have front := comm ((apart (.left 0)).imp (atFront_eq_id h cut) (atFront_eq_id h cut')) b.front
  have back := comm ((apart (.right (Text.byteSize b.base))).imp (atBack_eq_id h cut)
    (atBack_eq_id h cut')) b.back
  have chunks : (b.chunks.map d.revise).map c.revise = (b.chunks.map c.revise).map d.revise := by
    rw [List.map_map, List.map_map]
    refine List.map_congr_left fun x hx => ?_
    have placed := h.tiles.placed hx
    exact Chunk.Revision.run_comm
      ((apart (.right x.start)).imp (before_revision x.stop) (before_revision x.stop))
      ((apart (.byte x.start)).imp (body_revision x.stop) (body_revision x.stop))
      ((apart (.left x.stop)).imp
        (after_revision placed fun i hi => ⟨(cut i hi).1, (cut i hi).2 x hx⟩)
        (after_revision placed fun i hi => ⟨(cut' i hi).1, (cut' i hi).2 x hx⟩)) x
  rw [run_eq c (d.run b), run_eq d (c.run b), atFront_run, atFront_run, atBack_run, atBack_run,
    run_eq c b, run_eq d b]
  simp only [front, back, chunks]

/-- Of a chunk across an offset that a change spares, only the outer sides of the two parts are
changed, as they are on the whole chunk. -/
theorem revision_parts (cut : ∀ i ∈ c.cuts, x.crosses i = false) (spares : c.Spares j)
    (cross : x.crosses j = true) :
    c.revision x.start j = { before := (c.revision x.start x.stop).before } ∧
      c.revision j x.stop = { after := (c.revision x.start x.stop).after } ∧
        (c.revision x.start x.stop).body = id := by
  have inside := Chunk.crosses_iff.1 cross
  have ne : ∀ i ∈ c.cuts, j ≠ i := by
    rintro i hi rfl
    exact absurd (cut j hi) (by simp [cross])
  cases c with
  | left i f => simp [revision, ne i (by simp [cuts])]
  | right i f => simp [revision, ne i (by simp [cuts])]
  | range first last forward content options =>
    -- the chunk ends before the range starts, or starts where the range stops or later
    have notFirst := ne first (by simp [cuts])
    have notLast := ne last (by simp [cuts])
    have first' := Chunk.crosses_eq_false.1 (cut first (by simp [cuts]))
    have last' := Chunk.crosses_eq_false.1 (cut last (by simp [cuts]))
    have spares : j ≤ first ∨ last ≤ j := spares
    have start : x.start ≠ first := by omega
    have inner : ¬(first < x.start ∧ x.start < last) := by omega
    have inner' : ¬(first < j ∧ j < last) := by omega
    simp [revision, start, inner, notFirst, inner']
  | _ => exact ⟨rfl, rfl, rfl⟩

/-- A chunk is divided behind a change as before it, at an offset that the change spares. -/
theorem divide_revise (cut : ∀ i ∈ c.cuts, x.crosses i = false) (spares : c.Spares j) :
    (c.revise x).divide j = (x.divide j).map c.revise := by
  have same : (c.revise x).crosses j = x.crosses j := rfl
  cases cross : x.crosses j with
  | false => simp [Chunk.divide, same, cross]
  | true =>
    obtain ⟨left, right, body⟩ := revision_parts cut spares cross
    have left' : (c.revise x).left j = c.revise (x.left j) := by
      show _ = (c.revision x.start j).run (x.left j)
      simp [left, revise, Chunk.Revision.run, Chunk.left, body]
    have right' : (c.revise x).right j = c.revise (x.right j) := by
      show _ = (c.revision j x.stop).run (x.right j)
      simp [right, revise, Chunk.Revision.run, Chunk.right, body]
    simp [Chunk.divide, same, cross, left', right']

/-- A cut at an offset that a change spares can be made before it or after it. -/
theorem run_divide (cut : ∀ i ∈ c.cuts, b.Parted i) (spares : c.Spares j) :
    (c.run b).divide j = c.run (b.divide j) := by
  -- the cut makes no chunk start or stop where the change looks for one
  have found : ∀ {i : Nat} {q : Chunk → Bool}, b.Parted i →
      (∀ x : Chunk, j ≠ i → (q (x.left j) || q (x.right j)) = q x) →
      (b.divide j).chunks.any q = b.chunks.any q := by
    intro i q parted part
    rw [Buffer.divide, List.any_flatMap, Bool.eq_iff_iff, List.any_eq_true, List.any_eq_true]
    refine exists_congr fun x => and_congr_right fun hx => ?_
    cases cross : x.crosses j with
    | false => simp [Chunk.divide, cross]
    | true =>
      have ne : j ≠ i := by
        rintro rfl
        exact absurd (parted x hx) (by simp [cross])
      simp [Chunk.divide, cross, ← part x ne]
  have front : c.atFront (b.divide j) = c.atFront b := by
    cases c with
    | left i f =>
      have stops := found (q := (·.stop == i)) (cut i (by simp [cuts])) fun x ne => by
        simp [Chunk.left, Chunk.right, ne]
      simp only [atFront, stops]
    | _ => rfl
  have back : c.atBack (b.divide j) = c.atBack b := by
    cases c with
    | right i f =>
      have starts := found (q := (·.start == i)) (cut i (by simp [cuts])) fun x ne => by
        simp [Chunk.left, Chunk.right, ne]
      simp only [atBack, starts]
    | _ => rfl
  have chunks : (b.chunks.map c.revise).flatMap (·.divide j) =
      (b.chunks.flatMap (·.divide j)).map c.revise := by
    rw [List.flatMap_map, List.map_flatMap, List.flatMap_def, List.flatMap_def,
      List.map_congr_left fun x hx => divide_revise (fun i hi => cut i hi x hx) spares]
  rw [run_eq, run_eq, front, back]
  simp only [Buffer.divide, chunks]

/-- Cuts at offsets that a change spares can be made before it or after it. -/
theorem run_divideAll {js : List Nat} (cut : ∀ i ∈ c.cuts, b.Parted i)
    (spares : ∀ j ∈ js, c.Spares j) : (c.run b).divideAll js = c.run (b.divideAll js) := by
  induction js generalizing b with
  | nil => rfl
  | cons j js ih =>
    rw [Buffer.divideAll_cons, Buffer.divideAll_cons, run_divide cut (spares j List.mem_cons_self)]
    exact ih (fun i hi => (cut i hi).divide j) fun k hk => spares k (List.mem_cons_of_mem _ hk)

theorem base_run (c : Change) (b : Buffer) : (c.run b).base = b.base := by rw [run_eq]

/-- A change puts no obstacle in the way of a cut that it spares, and takes none away. -/
theorem obstacle?_run (cut : ∀ i ∈ c.cuts, b.Parted i) (spares : c.Spares j) :
    (c.run b).obstacle? j = b.obstacle? j := by
  have crossing : (b.chunks.map c.revise).find? (·.crosses j) =
      (b.chunks.find? (·.crosses j)).map c.revise := List.find?_map ..
  have check : (c.run b).checkIndex j = b.checkIndex j := by rw [run_eq]; rfl
  have chunks : (c.run b).chunks = b.chunks.map c.revise := by rw [run_eq]
  rw [Buffer.obstacle?, Buffer.obstacle?, Buffer.cut, Buffer.cut, check, chunks, crossing]
  cases b.checkIndex j with
  | error err => rfl
  | ok u =>
    cases found : b.chunks.find? (·.crosses j) with
    | none => rfl
    | some x =>
      have hx := List.mem_of_find?_eq_some found
      have cross : x.crosses j = true := by simpa using List.find?_some found
      have body := (revision_parts (fun i hi => cut i hi x hx) spares cross).2.2
      have kept : (c.revise x).body = x.body := congrFun body x.body
      cases hd : x.body.isDivisible <;>
        simp [bind, Except.bind, kept, hd, Buffer.splitError, base_run]

/-- A change spares the cuts of the changes at other places. -/
theorem spares_of_disjoint (disjoint : Disjoint c.footprint d.footprint) (hj : j ∈ d.cuts) :
    c.Spares j := by
  cases c with
  | range first last forward content options =>
    have out : ∀ p ∈ Place.ofRange first last, p ∉ d.footprint :=
      fun p hp => Set.disjoint_left.1 disjoint hp
    show j ≤ first ∨ last ≤ j
    by_contra inside
    cases d with
    | left i f =>
      obtain rfl : j = i := by simpa [cuts] using hj
      exact out (.left j) (show first < j ∧ j ≤ last by omega) rfl
    | right i f =>
      obtain rfl : j = i := by simpa [cuts] using hj
      exact out (.right j) (show first ≤ j ∧ j < last by omega) rfl
    | range first' last' forward' content' options' =>
      -- the byte at the start of the other range, or the one before its end
      have ends : j = first' ∨ j = last' := by simpa [cuts] using hj
      rcases ends with rfl | rfl
      · exact out (.byte j) (show first ≤ j ∧ j < last by omega)
          (show j ≤ j ∧ j < last' by omega)
      · exact out (.byte (j - 1)) (show first ≤ j - 1 ∧ j - 1 < last by omega)
          (show first' ≤ j - 1 ∧ j - 1 < j by omega)
    | _ => simp [cuts] at hj
  | _ => trivial

end Change

namespace Chunk
variable {base : Text} {c : Chunk} {i j : Nat}

/-- The three parts of a chunk that is cut twice do not depend on the order of the cuts. -/
theorem Placed.parts_comm (h : c.Placed base) (hi : Text.isBoundary base i = true)
    (hj : Text.isBoundary base j = true) (cross : c.crosses i = true) (cross' : c.crosses j = true)
    (lt : i < j) : (c.left j).left i = c.left i ∧ (c.left j).right i = (c.right i).left j ∧
      (c.right i).right j = c.right j := by
  have inside := crosses_iff.1 cross
  have inside' := crosses_iff.1 cross'
  cases hb : c.body with
  | replaced t named => simp [left, right, Body.left, Body.right, hb]
  | copied t =>
    have first := fun {k : Nat} (hk : Text.isBoundary base k = true) (le : c.start ≤ i)
      (le' : i ≤ k) => And.intro (Text.takeBytes_slice h.start_boundary hi hk le le')
        (Text.dropBytes_slice h.start_boundary hi hk le le')
    obtain ⟨whole, rest⟩ := first h.stop_boundary (by omega) (by omega)
    obtain ⟨part, middle⟩ := first hj (by omega) (by omega)
    have upper := Text.takeBytes_slice h.start_boundary hj h.stop_boundary (by omega) (by omega)
    have upper' := Text.dropBytes_slice h.start_boundary hj h.stop_boundary (by omega) (by omega)
    have inner := Text.takeBytes_slice hi hj h.stop_boundary (by omega) (by omega)
    have inner' := Text.dropBytes_slice hi hj h.stop_boundary (by omega) (by omega)
    rw [h.copied t hb] at hb
    simp [left, right, Body.left, Body.right, hb, whole, rest, part, middle, upper, upper', inner,
      inner']

/-- Two cuts of a chunk can be made in either order. -/
theorem Placed.divide_comm (h : c.Placed base) (hi : Text.isBoundary base i = true)
    (hj : Text.isBoundary base j = true) :
    (c.divide i).flatMap (·.divide j) = (c.divide j).flatMap (·.divide i) := by
  have ordered : ∀ {i j : Nat}, Text.isBoundary base i = true → Text.isBoundary base j = true →
      i < j → (c.divide i).flatMap (·.divide j) = (c.divide j).flatMap (·.divide i) := by
    intro i j hi hj lt
    cases cross : c.crosses i with
    | false =>
      cases cross' : c.crosses j with
      | false => simp [divide, cross, cross']
      | true =>
        have apart := crosses_eq_false.1 cross
        have inside := crosses_iff.1 cross'
        have left : (c.left j).crosses i = false :=
          crosses_eq_false.2 (show i ≤ c.start ∨ j ≤ i by omega)
        have right : (c.right j).crosses i = false :=
          crosses_eq_false.2 (show i ≤ j ∨ c.stop ≤ i by omega)
        simp [divide, cross, cross', left, right]
    | true =>
      have inside := crosses_iff.1 cross
      have left : (c.left i).crosses j = false :=
        crosses_eq_false.2 (show j ≤ c.start ∨ i ≤ j by omega)
      cases cross' : c.crosses j with
      | false =>
        have apart := crosses_eq_false.1 cross'
        have right : (c.right i).crosses j = false :=
          crosses_eq_false.2 (show j ≤ i ∨ c.stop ≤ j by omega)
        simp [divide, cross, cross', left, right]
      | true =>
        have inside' := crosses_iff.1 cross'
        have right : (c.right j).crosses i = false :=
          crosses_eq_false.2 (show i ≤ j ∨ c.stop ≤ i by omega)
        have second : (c.right i).crosses j = true :=
          crosses_iff.2 (show i < j ∧ j < c.stop by omega)
        have second' : (c.left j).crosses i = true :=
          crosses_iff.2 (show c.start < i ∧ i < j by omega)
        obtain ⟨front, middle, back⟩ := h.parts_comm hi hj cross cross' lt
        simp [divide, cross, cross', left, right, second, second', front, middle, back]
  rcases Nat.lt_trichotomy i j with lt | rfl | gt
  · exact ordered hi hj lt
  · rfl
  · exact (ordered hj hi gt).symm

end Chunk

namespace Buffer
variable {b : Buffer} {i j : Nat} {is js : List Nat}

/-- Two cuts can be made in either order. -/
theorem Tiled.divide_comm (h : b.Tiled) (hi : Text.isBoundary b.base i = true)
    (hj : Text.isBoundary b.base j = true) : (b.divide i).divide j = (b.divide j).divide i := by
  have chunks : (b.chunks.flatMap (·.divide i)).flatMap (·.divide j) =
      (b.chunks.flatMap (·.divide j)).flatMap (·.divide i) := by
    rw [List.flatMap_assoc, List.flatMap_assoc, List.flatMap_def, List.flatMap_def,
      List.map_congr_left fun c hc => (h.tiles.placed hc).divide_comm hi hj]
  exact congrArg (fun cs => { b with chunks := cs }) chunks

/-- Cuts can be made in any order. -/
theorem Tiled.divideAll_comm (h : b.Tiled) (his : ∀ i ∈ is, Text.isBoundary b.base i = true)
    (hjs : ∀ j ∈ js, Text.isBoundary b.base j = true) :
    (b.divideAll is).divideAll js = (b.divideAll js).divideAll is := by
  have one : ∀ {b : Buffer} {i : Nat} (js : List Nat), b.Tiled → Text.isBoundary b.base i = true →
      (∀ j ∈ js, Text.isBoundary b.base j = true) →
      (b.divide i).divideAll js = (b.divideAll js).divide i := by
    intro b i js h hi hjs
    induction js generalizing b with
    | nil => rfl
    | cons j js ih =>
      have hj := hjs j List.mem_cons_self
      rw [divideAll_cons, divideAll_cons, h.divide_comm hi hj]
      exact ih (h.divide hj) hi fun k hk => hjs k (List.mem_cons_of_mem _ hk)
  induction is generalizing b with
  | nil => rfl
  | cons i is ih =>
    have hi := his i List.mem_cons_self
    rw [divideAll_cons, divideAll_cons, ← one js h hi hjs]
    exact ih (h.divide hi) (fun k hk => his k (List.mem_cons_of_mem _ hk)) hjs

end Buffer

namespace Edit
variable {b : Buffer} {e f : Edit}

/-- The change of an edit lies in the footprint of the edit. -/
theorem footprint_change (e : Edit) : e.change.footprint ⊆ e.footprint := by
  cases e with
  | overwrite start stop content options =>
    simp only [change]
    split
    · exact subset_rfl
    · exact Set.empty_subset _
  | remove start stop =>
    simp only [change]
    split
    · exact subset_rfl
    · exact Set.empty_subset _
  | _ => exact subset_rfl

theorem footprint_changeMade (b : Buffer) (e : Edit) :
    (e.changeMade b).footprint ⊆ e.footprint := by
  unfold changeMade
  split
  · exact Set.empty_subset _
  · exact e.footprint_change

/-- Behind an edit at another place, an edit meets what it would meet in front of it, and both
changes stand behind the cuts of both. -/
theorem apply_behind (h : b.Tiled) (disjoint : Disjoint e.footprint f.footprint) :
    (f.apply (e.apply b).left).refusal? = (f.apply b).refusal? ∧
      (f.apply (e.apply b).left).left = (f.changeMade b).run ((e.changeMade b).run
        ((b.divideAll (e.cutsMade b)).divideAll (f.cutsMade b))) := by
  obtain ⟨tiled, same⟩ := h.divideAll fun i hi => (of_mem_cutsMade (e := e) hi).2
  have parted : ∀ i ∈ (e.changeMade b).cuts, (b.divideAll (e.cutsMade b)).Parted i :=
    fun i hi => Buffer.parted_divideAll b (cuts_changeMade hi)
  have spares : ∀ j ∈ f.change.cuts, (e.changeMade b).Spares j := fun j hj =>
    Change.spares_of_disjoint (disjoint.mono (footprint_changeMade b e) f.footprint_change) hj
  have left := left_apply h e
  have base : (e.apply b).left.base = b.base := Buffer.apply_base b e
  have obstacle : ∀ j ∈ f.change.cuts, (e.apply b).left.obstacle? j = b.obstacle? j := by
    intro j hj
    rw [left, Change.obstacle?_run parted (spares j hj), same]
  obtain ⟨refusal, cuts, change⟩ := outcome_congr base obstacle
  constructor
  · rw [refusal_apply (h.apply e), refusal, refusal_apply h]
  · rw [left_apply (h.apply e), change, cuts, left,
      Change.run_divideAll parted fun j hj => spares j (of_mem_cutsMade hj).1]

/-- Edits at different places leave the same buffer in either order. -/
theorem left_comm (h : b.Tiled) (disjoint : Disjoint e.footprint f.footprint) :
    (f.apply (e.apply b).left).left = (e.apply (f.apply b).left).left := by
  have free : ∀ {g : Edit}, ∀ i ∈ g.cutsMade b, b.obstacle? i = none :=
    fun i hi => (of_mem_cutsMade hi).2
  have boundary : ∀ {g : Edit}, ∀ i ∈ g.cutsMade b, Text.isBoundary b.base i = true :=
    fun i hi => h.boundary_of_obstacle? (free i hi)
  have both : ((b.divideAll (e.cutsMade b)).divideAll (f.cutsMade b)).Tiled := by
    obtain ⟨first, same⟩ := h.divideAll (free (g := e))
    refine (first.divideAll fun j hj => ?_).1
    rw [same]
    exact free j hj
  have base : ((b.divideAll (e.cutsMade b)).divideAll (f.cutsMade b)).base = b.base := by
    rw [Buffer.divideAll_base, Buffer.divideAll_base]
  have order := h.divideAll_comm (boundary (g := f)) (boundary (g := e))
  rw [(apply_behind h disjoint).2, (apply_behind h disjoint.symm).2, order]
  refine Change.run_comm both (fun i hi => ⟨?_, ?_⟩) (fun i hi => ⟨?_, ?_⟩)
    (disjoint.symm.mono (footprint_changeMade b f) (footprint_changeMade b e))
  · rw [base]
    exact boundary i (cuts_changeMade hi)
  · exact Buffer.parted_divideAll _ (cuts_changeMade hi)
  · rw [base]
    exact boundary i (cuts_changeMade hi)
  · exact (Buffer.parted_divideAll b (cuts_changeMade hi)).divideAll _

end Edit

/-- Edits with disjoint footprints leave the same buffer in either order, and each is accepted,
or refused for the same reason, in either place. -/
theorem disjoint_edits_commute (t : Text) (filename : Option String) (edits : List Edit)
    (e f : Edit) (disjoint : Disjoint e.footprint f.footprint) :
    let b : Buffer := { (Buffer.ofText t).run edits with filename }
    (f.apply (e.apply b).left).left = (e.apply (f.apply b).left).left ∧
      (f.apply (e.apply b).left).refusal? = (f.apply b).refusal? ∧
      (e.apply (f.apply b).left).refusal? = (e.apply b).refusal? := by
  intro b
  have tiled : b.Tiled := Buffer.tiled_reached t filename edits
  exact ⟨Edit.left_comm tiled disjoint, (Edit.apply_behind tiled disjoint).1,
    (Edit.apply_behind tiled disjoint.symm).1⟩

/-- A removal that is refused at its end commutes with an insertion in front of its start, though
each leaves a cut there. -/
theorem refused_removal_commutes :
    let b : Buffer := { (Buffer.ofText "abcdef".toList).run [.overwrite 3 6 ['X'] {}] with
      filename := none }
    let e : Edit := .remove 1 4
    let f : Edit := .appendLeft 1 ['y']
    Disjoint e.footprint f.footprint ∧ (e.apply b).accepted = false ∧
      (f.apply b).accepted = true ∧
      (f.apply (e.apply b).left).left = (e.apply (f.apply b).left).left ∧
      (f.apply (e.apply b).left).refusal? = (f.apply b).refusal? ∧
      (e.apply (f.apply b).left).refusal? = (e.apply b).refusal? := by
  intro b e f
  have disjoint : Disjoint e.footprint f.footprint := by
    rw [Set.disjoint_left]
    rintro p inRange rfl
    exact absurd inRange.1 (by decide)
  refine ⟨disjoint, by decide, by decide, ?_⟩
  exact disjoint_edits_commute "abcdef".toList none [.overwrite 3 6 ['X'] {}] e f disjoint

end ComponentEdit
