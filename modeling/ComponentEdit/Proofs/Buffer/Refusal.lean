import ComponentEdit.Proofs.Buffer.Cuts
import ComponentEdit.Proofs.Buffer.Provenance
import ComponentEdit.Proofs.SourceMap.Exactness

/-!
# What a refused edit leaves cannot be seen

A refused edit may leave a cut. The two parts of a chunk have the trace of the whole one
(`Chunk.flatMap_trace_divide`), and the part that reaches a place finds the same offset there
(`Buffer.offsetAt_divide`). So a cut does not show in the rendered text, in the map of every
character, or in the base span of any range, and it puts up no obstacle either
(`refused_edit_unobservable`).
-/

namespace ComponentEdit
set_option autoImplicit false

namespace Chunk
variable {base : Text} {c : Chunk} {i : Nat}

/-- A copied body that is cut at a boundary is the text of the base up to there and from there on. -/
theorem Placed.body_parts (h : c.Placed base) (hi : Text.isBoundary base i = true)
    (cross : c.crosses i = true) {t : Text} (body : c.body = .copied t) :
    ∃ s r, t = s ++ r ∧ c.start + Text.byteSize s = i ∧ i + Text.byteSize r = c.stop ∧
      (c.left i).body = .copied s ∧ (c.right i).body = .copied r := by
  obtain ⟨lo, hi'⟩ := crosses_iff.1 cross
  have front := Text.takeBytes_slice h.start_boundary hi h.stop_boundary (by omega) (by omega)
  have rest := Text.dropBytes_slice h.start_boundary hi h.stop_boundary (by omega) (by omega)
  rw [← h.copied t body] at front rest
  refine ⟨t.takeBytes (i - c.start), t.dropBytes (i - c.start),
    (Text.takeBytes_append_dropBytes _ _).symm, ?_, ?_, ?_, ?_⟩
  · rw [front, Text.add_byteSize_slice h.start_boundary hi (by omega)]
  · rw [rest, Text.add_byteSize_slice hi h.stop_boundary (by omega)]
  · simp only [left, Body.left, body]
  · simp only [right, Body.right, body]

/-- A cut keeps where every character of a chunk comes from. -/
theorem flatMap_trace_divide (h : c.Placed base) (hi : Text.isBoundary base i = true)
    (hd : c.crosses i = true → c.body.isDivisible = true) :
    (c.divide i).flatMap (trace base) = c.trace base := by
  cases cross : c.crosses i with
  | false => simp [divide, cross]
  | true =>
    have parts : c.divide i = [c.left i, c.right i] := by simp [divide, cross]
    rw [parts]
    cases hb : c.body with
    | copied t =>
      obtain ⟨s, r, rfl, place, -, front, rest⟩ := h.body_parts hi cross hb
      have after : (c.left i).after = [] := rfl
      have before : (c.right i).before = [] := rfl
      have start : (c.right i).start = i := rfl
      simp only [List.flatMap_cons, List.flatMap_nil, List.append_nil, trace, front, rest, hb, after,
        before, start, Trace.copied_append, place]
      simp [Trace.attached, left, right]
    | replaced t named =>
      have nil : t = [] := by simpa [Body.isDivisible, hb] using hd cross
      simp [trace, left, right, Body.left, Body.right, hb, nil, Trace.replaced, Trace.attached]

end Chunk

namespace Buffer
variable {b : Buffer} {i : Nat}

/-- The offset of the base that copied bodies show at a place of the rendered text. -/
def offsetAt (place : Nat) (copies : List Copy) : Option Nat :=
  (copies.find? (·.reaches place)).map fun c => c.origin + (place - c.place)

theorem offsetAt_append (place : Nat) (xs ys : List Copy) :
    offsetAt place (xs ++ ys) = (offsetAt place xs).or (offsetAt place ys) := by
  rw [offsetAt, List.find?_append, Option.map_or]
  rfl

/-- Two copies that follow on show what the one they make up shows. -/
theorem offsetAt_parts (place position origin m n : Nat) :
    offsetAt place [⟨position, origin, m⟩, ⟨position + m, origin + m, n⟩] =
      offsetAt place [⟨position, origin, m + n⟩] := by
  by_cases inLeft : position ≤ place ∧ place ≤ position + m
  · have whole : place ≤ position + (m + n) := by omega
    simp [offsetAt, Copy.reaches, inLeft, whole]
  · by_cases inRight : position + m ≤ place ∧ place ≤ position + m + n
    · have whole : position ≤ place ∧ place ≤ position + (m + n) := by omega
      have behind : ¬place ≤ position + m := by omega
      have same : origin + m + (place - (position + m)) = origin + (place - position) := by omega
      simp [offsetAt, Copy.reaches, behind, inRight, whole, same]
    · have whole : ¬(position ≤ place ∧ place ≤ position + (m + n)) := by omega
      simp [offsetAt, Copy.reaches, inLeft, inRight, whole]

theorem copiesFrom_append (position : Nat) (cs ds : List Chunk) :
    copiesFrom position (cs ++ ds) = copiesFrom position cs ++
      copiesFrom (position + Text.byteSize (cs.flatMap Chunk.render)) ds := by
  induction cs generalizing position with
  | nil => rfl
  | cons c cs ih =>
    rw [List.cons_append, copiesFrom, ih, copiesFrom, List.flatMap_cons, Text.byteSize_append,
      Nat.add_assoc]
    cases c.body <;> rfl

/-- A cut of a chunk keeps the offset that it shows at a place. -/
theorem offsetAt_divide {base : Text} {c : Chunk} (h : c.Placed base)
    (hi : Text.isBoundary base i = true) (place position : Nat) :
    offsetAt place (copiesFrom position (c.divide i)) = offsetAt place (copiesFrom position [c]) := by
  cases cross : c.crosses i with
  | false => simp [Chunk.divide, cross]
  | true =>
    have parts : c.divide i = [c.left i, c.right i] := by simp [Chunk.divide, cross]
    rw [parts]
    cases hb : c.body with
    | replaced t named =>
      simp [copiesFrom, hb, Chunk.left, Chunk.right, Body.left, Body.right]
    | copied t =>
      obtain ⟨s, r, rfl, rfl, -, front, rest⟩ := h.body_parts hi cross hb
      have shown : Text.byteSize (c.left (c.start + Text.byteSize s)).render =
          Text.byteSize c.before + Text.byteSize s := by
        rw [Chunk.render, front]
        simp [Body.text, Chunk.left]
      have behind := offsetAt_parts place (position + Text.byteSize c.before) c.start
        (Text.byteSize s) (Text.byteSize r)
      rw [Nat.add_assoc] at behind
      simp only [copiesFrom, front, rest, hb, shown, Text.byteSize_append]
      exact behind

/-- A cut keeps the offset that is shown at a place. -/
theorem offsetAt_flatMap_divide {base : Text} {cs : List Chunk} (hcs : ∀ c ∈ cs, c.Placed base)
    (hi : Text.isBoundary base i = true)
    (hd : ∀ c ∈ cs, c.crosses i = true → c.body.isDivisible = true) (place position : Nat) :
    offsetAt place (copiesFrom position (cs.flatMap (·.divide i))) =
      offsetAt place (copiesFrom position cs) := by
  induction cs generalizing position with
  | nil => rfl
  | cons c cs ih =>
    have rest := ih (fun d hm => hcs d (List.mem_cons_of_mem _ hm))
      (fun d hm => hd d (List.mem_cons_of_mem _ hm))
    have placed := hcs c List.mem_cons_self
    have render : (c.divide i).flatMap Chunk.render = [c].flatMap Chunk.render := by
      rw [← text_flatMap_trace base, Chunk.flatMap_trace_divide placed hi (hd c List.mem_cons_self)]
      simp
    have front := copiesFrom_append position [c] cs
    rw [List.singleton_append] at front
    rw [List.flatMap_cons, copiesFrom_append, offsetAt_append, rest, render,
      offsetAt_divide placed hi, front, offsetAt_append]

/-- Two buffers that no reading tells apart, but maps of one token a line, and that refuse the same
edits for the same reasons. -/
structure Alike (b b' : Buffer) : Prop where
  render : b'.render = b.render
  length : b'.length = b.length
  hasChanged : b'.hasChanged = b.hasChanged
  baseSpan? : ∀ range, b'.baseSpan? range = b.baseSpan? range
  sourceMap : ∀ options, options.hires = true → b'.sourceMap options = b.sourceMap options
  refusal : ∀ next : Edit, (next.apply b').refusal? = (next.apply b).refusal?

theorem Alike.refl (b : Buffer) : b.Alike b where
  render := rfl
  length := rfl
  hasChanged := rfl
  baseSpan? _ := rfl
  sourceMap _ _ := rfl
  refusal _ := rfl

theorem Alike.trans {b₁ b₂ b₃ : Buffer} (h : b₁.Alike b₂) (h' : b₂.Alike b₃) : b₁.Alike b₃ where
  render := h'.render.trans h.render
  length := h'.length.trans h.length
  hasChanged := h'.hasChanged.trans h.hasChanged
  baseSpan? range := (h'.baseSpan? range).trans (h.baseSpan? range)
  sourceMap options hires := (h'.sourceMap options hires).trans (h.sourceMap options hires)
  refusal next := (h'.refusal next).trans (h.refusal next)

/-- A cut keeps where every character of the rendered text comes from. -/
theorem Tiled.trace_divide (h : b.Tiled) (ok : b.obstacle? i = none) :
    (b.divide i).trace = b.trace := by
  obtain ⟨hi, hd⟩ := h.obstacle?_eq_none.1 ok
  have chunks : (b.chunks.flatMap (·.divide i)).flatMap (Chunk.trace b.base) =
      b.chunks.flatMap (Chunk.trace b.base) := by
    rw [List.flatMap_assoc, List.flatMap_def, List.flatMap_def, List.map_congr_left fun c hc =>
      Chunk.flatMap_trace_divide (h.tiles.placed hc) hi (hd c hc)]
  rw [trace, trace]
  show _ ++ List.flatMap _ (b.chunks.flatMap (·.divide i)) ++ _ = _
  rw [show (b.divide i).base = b.base from rfl, chunks]
  rfl

/-- A cut keeps the base span of every range. -/
theorem Tiled.baseSpan?_divide (h : b.Tiled) (ok : b.obstacle? i = none) (range : Span) :
    (b.divide i).baseSpan? range = b.baseSpan? range := by
  have trace := h.trace_divide ok
  obtain ⟨hi, hd⟩ := h.obstacle?_eq_none.1 ok
  obtain ⟨start, stop⟩ := range
  rcases Nat.lt_or_ge start stop with lt | le
  · have provenance : (b.divide i).provenance = b.provenance := by
      rw [provenance_eq_byteOrigins, provenance_eq_byteOrigins, trace]
    have length : (b.divide i).length = b.length := by
      rw [← length_provenance, provenance, length_provenance]
    apply Option.ext
    intro s
    rw [baseSpan?_eq_some_iff lt, baseSpan?_eq_some_iff lt, provenance, length]
  · have shown := offsetAt_flatMap_divide (fun c hc => h.tiles.placed hc) hi hd start
      (Text.byteSize b.front)
    have span : ∀ b' : Buffer, b'.baseSpan? ⟨start, stop⟩ =
        (offsetAt start b'.copies).map fun o => ⟨o, o⟩ := by
      intro b'
      rw [baseSpan?_of_empty le, offsetAt, Option.map_map]
      rfl
    rw [span, span]
    exact congrArg _ shown

/-- A cut that goes through cannot be seen. -/
theorem Tiled.alike_divide (h : b.Tiled) (ok : b.obstacle? i = none) : b.Alike (b.divide i) := by
  have trace := h.trace_divide ok
  have tiled := h.divide (h.boundary_of_obstacle? ok)
  have render : (b.divide i).render = b.render := by rw [← text_trace, trace, text_trace]
  constructor
  case render => exact render
  case length => rw [length, length, render]
  case hasChanged =>
    rw [hasChanged, hasChanged, render]
    rfl
  case baseSpan? => exact h.baseSpan?_divide ok
  case sourceMap =>
    intro options hires
    have tokens : (b.divide i).tokens true = b.tokens true := by
      rw [tiled.tokens_hires, h.tokens_hires, trace]
      rfl
    rw [sourceMap, sourceMap, hires, tokens]
    rfl
  case refusal =>
    intro next
    rw [Edit.refusal_apply tiled, Edit.refusal_apply h]
    exact (Edit.outcome_congr (divide_base b i) fun j _ => h.obstacle?_divide ok j).1

/-- Cuts that go through cannot be seen. -/
theorem Tiled.alike_divideAll (h : b.Tiled) {is : List Nat} (ok : ∀ i ∈ is, b.obstacle? i = none) :
    b.Alike (b.divideAll is) := by
  induction is generalizing b with
  | nil => exact .refl b
  | cons i is ih =>
    have first := ok i List.mem_cons_self
    refine (h.alike_divide first).trans
      (ih (h.divide (h.boundary_of_obstacle? first)) fun j hj => ?_)
    rw [h.obstacle?_divide first]
    exact ok j (List.mem_cons_of_mem _ hj)

/-- A refused edit leaves the cuts that it got to make. -/
theorem Tiled.left_of_refused (h : b.Tiled) {e : Edit} (refused : (e.apply b).accepted = false) :
    (e.apply b).left = b.divideAll (e.cutsMade b) := by
  have obstacle : (e.obstacle? b).isSome = true := by
    rw [Attempt.accepted, Edit.refusal_apply h] at refused
    simpa using refused
  rw [Edit.left_apply h, Edit.changeMade, if_pos obstacle, Change.run]

end Buffer

/-- What a refused edit leaves has the text, the length, the base span of every range and the map
of every character that were there before it, and it takes each edit, or refuses it for the same
reason, as what was there before would have. -/
theorem refused_edit_unobservable (t : Text) (filename : Option String) (edits : List Edit)
    (e : Edit) :
    let b : Buffer := { (Buffer.ofText t).run edits with filename }
    (e.apply b).accepted = false → b.Alike (e.apply b).left := by
  intro b refused
  have tiled : b.Tiled := Buffer.tiled_reached t filename edits
  rw [tiled.left_of_refused refused]
  exact tiled.alike_divideAll fun i hi => (Edit.of_mem_cutsMade hi).2

/-- A removal that is refused at its end keeps the cut at its start, which does not show. -/
theorem halfway_removal_unobservable :
    let b : Buffer := { (Buffer.ofText "abcdef".toList).run [.overwrite 3 6 ['X'] {}] with
      filename := none }
    let left := ((Edit.remove 1 4).apply b).left
    ((Edit.remove 1 4).apply b).accepted = false ∧ left ≠ b ∧ b.Alike left := by
  intro b left
  refine ⟨by decide, by decide, ?_⟩
  exact refused_edit_unobservable "abcdef".toList none [.overwrite 3 6 ['X'] {}] (.remove 1 4)
    (by decide)

end ComponentEdit
