import ComponentEdit.Proofs.Block.Hosting
import ComponentEdit.Proofs.Session.Anchoring
import ComponentEdit.Proofs.SourceMap.LineTokens

/-!
# What a refused edit of a block changes

An edit of a block that is refused leaves the session as it was, with one exception. A removal or a
replacement that the snippet takes is cut in the buffer at its start before it is refused at its
stop (`Block.StopsHalfway`), and that cut stays (`Block.left_of_refused`). It does not show, but in
a map of one token a line: there it has a token if it is inside a line of copied text
(`refused_block_edit_adds_at_most_a_token`).
-/

namespace ComponentEdit
set_option autoImplicit false

namespace Edit
variable {b : Buffer} {e : Edit} {i j : Nat}

/-- The buffer can be cut at the start of what the edit replaces, and not at its stop. -/
def StopsHalfway (e : Edit) (b : Buffer) (start : Nat) : Prop :=
  e.objection? b = none ∧
    ∃ stop, e.change.cuts = [start, stop] ∧ b.obstacle? start = none ∧ b.obstacle? stop ≠ none

/-- A refused edit made no cut, unless it stopped halfway. -/
theorem cutsMade_of_refused (refused : e.obstacle? b ≠ none) :
    (e.cutsMade b = [] ∧ ∀ i, ¬e.StopsHalfway b i) ∨
      ∃ i, e.cutsMade b = [i] ∧ ∀ j, e.StopsHalfway b j ↔ j = i := by
  cases objection : e.objection? b with
  | some err =>
    refine .inl ⟨by simp [cutsMade, objection], fun i halfway => ?_⟩
    simp [StopsHalfway, objection] at halfway
  | none =>
    rw [obstacle?, objection, Option.none_or] at refused
    simp only [cutsMade, StopsHalfway, objection, Option.isSome_none, Bool.false_eq_true, if_false,
      true_and]
    -- an edit cuts nowhere, at its offset, or at both ends of what it replaces
    generalize e.change = change at refused
    cases change with
    | nothing | front _ | back _ => simp [Change.cuts] at refused
    | left k _ | right k _ =>
      have met : b.obstacle? k ≠ none := by simpa [Change.cuts] using refused
      simp [Change.cuts, met]
    | range start stop _ _ _ =>
      cases first : b.obstacle? start with
      | some err =>
        refine .inl ⟨by simp [Change.cuts, first], ?_⟩
        rintro i ⟨_, cuts, free, -⟩
        cases cuts
        simp [first] at free
      | none =>
        have met : b.obstacle? stop ≠ none := by simpa [Change.cuts, first] using refused
        refine .inr ⟨start, by simp [Change.cuts, first, met], fun j => ⟨?_, ?_⟩⟩
        · rintro ⟨_, cuts, -⟩
          exact (List.cons.inj cuts).1.symm
        · rintro rfl
          exact ⟨stop, rfl, first, met⟩

end Edit

namespace Buffer
variable {b : Buffer} {i : Nat}

/-- All maps stay as they are if a cut is not inside a line, and only then. -/
theorem Tiled.sourceMap_divide_iff (h : b.Tiled) (ok : b.obstacle? i = none) :
    (∀ options, (b.divide i).sourceMap options = b.sourceMap options) ↔ ¬b.InsideLine i := by
  constructor
  · intro same inside
    obtain ⟨u, token, v, whole, divided⟩ := h.tokens_divide_inside inside
    have tokens : (b.divide i).tokens false = b.tokens false :=
      congrArg SourceMap.tokens (same { hires := false })
    have length := congrArg List.length tokens
    rw [whole, divided] at length
    simp at length
  · intro outside options
    cases hires : options.hires with
    | true => exact (h.alike_divide ok).sourceMap options hires
    | false =>
      rw [sourceMap, sourceMap, hires, h.tokens_divide_outside ok outside]
      rfl

end Buffer

namespace Block
variable {b : Block} {source : Source} {e : Edit} {i : Nat}

/-- The edit comes to a free buffer, which can be cut at the start of what it replaces, and not at
its stop. -/
structure StopsHalfway (b : Block) (source : Source) (e : Edit) (start : Nat) : Prop where
  taken : (e.apply b.snippet).accepted = true
  free : source.access = .free
  halfway : (e.within b.span).StopsHalfway source.buffer start

/-- A refused edit leaves the block and its buffer as they were, but for a cut if it stopped
halfway. -/
theorem left_of_refused (tiled : source.buffer.Tiled)
    (plain : b.replacement? e.operation = none)
    (refused : (b.apply (some source) e).accepted = false) :
    ((b.apply (some source) e).left = ⟨b, some source⟩ ∧ ∀ i, ¬b.StopsHalfway source e i) ∨
      ∃ i, (∀ j, b.StopsHalfway source e j ↔ j = i) ∧
        (b.apply (some source) e).left =
          ⟨b, some { source with buffer := source.buffer.divide i }⟩ := by
  rcases apply_inversion plain source with
    ⟨err, snippet, eq⟩ | ⟨taken, ⟨busy, eq⟩ | ⟨free, ⟨err, parent, eq⟩ | ⟨-, eq⟩⟩⟩
  · refine .inl ⟨by rw [eq]; rfl, fun i halfway => ?_⟩
    have taken := halfway.taken
    simp [Attempt.accepted, snippet] at taken
  · exact .inl ⟨by rw [eq]; rfl, fun i halfway => busy halfway.free⟩
  · have obstacle : (e.within b.span).obstacle? source.buffer ≠ none := by
      rw [← Edit.refusal_apply tiled, parent]
      simp
    have left := tiled.left_of_refused (e := e.within b.span) (by simp [Attempt.accepted, parent])
    rcases Edit.cutsMade_of_refused obstacle with ⟨nowhere, never⟩ | ⟨i, one, halfway⟩
    · refine .inl ⟨?_, fun i stopped => never i stopped.halfway⟩
      rw [eq, left, nowhere]
      rfl
    · refine .inr ⟨i, fun j => ⟨fun stopped => (halfway j).1 stopped.halfway,
        fun eq => ⟨taken, free, (halfway j).2 eq⟩⟩, ?_⟩
      rw [eq, left, one]
      rfl
  · simp [eq] at refused

end Block

namespace Session
variable {s : Session} {source : Source} {ref : BlockRef} {b : Block} {e : Edit}

/-- An edit of a block that leaves the block as it was changes the buffer at most. -/
theorem left_edit_of_kept (hb : s.block? ref = some b) (plain : b.isReplaced e.operation = false)
    (kept : (b.apply s.source? e).left.block = b) :
    (s.edit ref b e).left = match (b.apply s.source? e).left.source with
      | some source => s.withSource source
      | none => s := by
  simp only [Session.edit, Attempt.map, plain, kept]
  cases (b.apply s.source? e).left.source with
  | none => exact putBlock_self hb
  | some source => exact putBlock_self ((block?_withSource s source ref).trans hb)

end Session

/-- A refused edit of a block, at any point of a session, leaves the session as it was, the block
and all others included, unless it stops halfway. Then the buffer of the session keeps the cut at
the start, which is all that changes: the text stays as it is, and so do all its maps, unless the
cut is inside a line of copied text. There it adds a token to the maps of one token a line. -/
theorem refused_block_edit_adds_at_most_a_token (t : Text) (filename : Option String)
    (upstream : List Edit) (s : Session) (source : Source) (held : s.source? = some source)
    (buffer : source.buffer = { (Buffer.ofText t).run upstream with filename })
    (fresh : ∀ ref, s.block? ref = none) (actions : List Session.Action) :
    let after := s.performAll actions
    ∀ ref b, after.block? ref = some b → ∀ e : Edit, b.isReplaced e.operation = false →
      (after.edit ref b e).accepted = false →
        (after.source? = none → (after.edit ref b e).left = after) ∧
          ∀ source', after.source? = some source' →
            ((after.edit ref b e).left = after ∧ ∀ i, ¬b.StopsHalfway source' e i) ∨
              ∃ i, (∀ j, b.StopsHalfway source' e j ↔ j = i) ∧
                let cut := source'.buffer.divide i
                (after.edit ref b e).left = after.withSource { source' with buffer := cut } ∧
                  source'.buffer.Alike cut ∧
                  ((∀ options, cut.sourceMap options = source'.buffer.sourceMap options) ↔
                    ¬source'.buffer.InsideLine i) ∧
                  (source'.buffer.InsideLine i → ∃ u token v,
                    source'.buffer.tokens false = u ++ v ∧ cut.tokens false = u ++ token :: v) := by
  intro after ref b hb e plain refused
  have refused : (b.apply after.source? e).accepted = false := refused
  have own : b.replacement? e.operation = none := by simpa [Block.isReplaced] using plain
  constructor
  · intro gone
    have detached : (b.apply after.source? e).left = ⟨b, none⟩ := by
      simp [Block.apply, own, gone, Source.held]
    rw [Session.left_edit_of_kept hb plain (by rw [detached]), detached]
  · intro source' there
    have moored := (Session.Moored.of_fresh held (.reached buffer) fresh).performAll actions
    have tiled := (moored.source source' there).tiled
    have edited := Session.left_edit_of_kept hb plain
    rw [there] at refused edited
    rcases Block.left_of_refused tiled own refused with ⟨left, never⟩ | ⟨i, halfway, left⟩
    · rw [edited (by rw [left]), left]
      exact .inl ⟨Session.withSource_self there, never⟩
    · obtain ⟨-, -, -, ok, -⟩ := ((halfway i).2 rfl).halfway
      rw [edited (by rw [left]), left]
      exact .inr ⟨i, halfway, rfl, tiled.alike_divide ok, tiled.sourceMap_divide_iff ok,
        tiled.tokens_divide_inside⟩

/-- A removal across the start of a replacement in the buffer is refused there, behind the cut at
its own start, which is inside the one line of the block. -/
theorem halfway_block_removal_adds_a_token :
    let source : Source := { buffer := { (Buffer.ofText "abcdef".toList).run [] with
      filename := none } }
    let actions : List Session.Action :=
      [.create {} (some ⟨0, 6⟩) {}, .editSource (.overwrite 3 6 ['X'] {})]
    let after := Session.performAll { owner := .source source } actions
    let e : Edit := .remove 1 4
    (∀ ref, Session.block? { owner := .source source } ref = none) ∧
      ∃ b source', after.block? (.single 0) = some b ∧ after.source? = some source' ∧
        b.isReplaced e.operation = false ∧ (after.edit (.single 0) b e).accepted = false ∧
          ∃ cut, (after.edit (.single 0) b e).left =
              after.withSource { source' with buffer := cut } ∧
            cut.render = source'.buffer.render ∧
            ∃ u token v,
              source'.buffer.tokens false = u ++ v ∧ cut.tokens false = u ++ token :: v := by
  intro source actions after e
  have fresh : ∀ ref, Session.block? { owner := .source source } ref = none := by
    rintro (i | ⟨r, i⟩)
    · rfl
    · rfl
  let b : Block := { descriptor := {}, span := ⟨0, 6⟩, snippet := .ofText "abcdef".toList }
  let source' : Source := (source.edit (.overwrite 3 6 ['X'] {})).left
  have there : after.block? (.single 0) = some b := rfl
  have held : after.source? = some source' := rfl
  have plain : b.isReplaced e.operation = false := rfl
  have refused : (after.edit (.single 0) b e).accepted = false := by decide
  have front : source'.buffer.obstacle? 1 = none := by decide
  have back : source'.buffer.obstacle? 4 ≠ none := by decide
  have halfway : b.StopsHalfway source' e 1 :=
    { taken := by decide, free := by decide, halfway := ⟨by decide, 4, rfl, front, back⟩ }
  have inside : source'.buffer.InsideLine 1 := by
    let c : Chunk := { start := 0, stop := 3, body := .copied ['a', 'b', 'c'] }
    have there : c ∈ source'.buffer.chunks := by decide
    exact ⟨c, there, [], 'a', 'b', ['c'], rfl, rfl, by decide, by decide⟩
  have exact := (refused_block_edit_adds_at_most_a_token "abcdef".toList none []
    { owner := .source source } source rfl rfl fresh actions (.single 0) b there e plain
    refused).2 source' held
  rcases exact with ⟨-, never⟩ | ⟨i, there', left, alike, -, added⟩
  · exact absurd halfway (never 1)
  · obtain rfl := (there' 1).1 halfway
    exact ⟨fresh, b, source', there, held, plain, refused, _, left, alike.render, added inside⟩

end ComponentEdit
