import ComponentEdit.Proofs.Buffer.Replacement
import ComponentEdit.Proofs.SourceMap.Resolution

/-!
# The name that a replacement records

A replacement that is to record what it replaced has a token for each of its lines, and every one
carries the stretch of the base that the chunk with the content stands for. That is the whole range
if the range was not cut inside before, and only its part up to the next cut otherwise
(`stored_name_up_to_next_cut`).
-/

namespace ComponentEdit
set_option autoImplicit false

namespace Buffer
variable {b : Buffer} {pre post : List Chunk} {c : Chunk} {token : Token}

/-- The trace around the body of a chunk that was replaced. -/
theorem trace_of_replaced (split : b.chunks = pre ++ c :: post) {content : Text}
    (body : c.body = .replaced content true) :
    ∃ x y, b.trace = x ++ (Trace.replaced c.start (some (Text.slice b.base c.start c.stop)) true
        content ++ y) ∧ x.text = b.front ++ pre.flatMap Chunk.render ++ c.before := by
  refine ⟨Trace.attached b.front ++ pre.flatMap (Chunk.trace b.base) ++ Trace.attached c.before,
    Trace.attached c.after ++ post.flatMap (Chunk.trace b.base) ++ Trace.attached b.back, ?_, ?_⟩
  · simp [trace, split, Chunk.trace, body]
  · simp [text_flatMap_trace]

/-- Every token that starts in a replacement leads to the start of its chunk. -/
theorem Tiled.token_of_replaced (h : b.Tiled) {x y : Trace} {start : Nat} {name : Option Text}
    {content : Text} (run : b.trace = x ++ (Trace.replaced start name true content ++ y))
    (mem : token ∈ b.tokens true) {k : Nat} (hk : k < content.length)
    (here : token.generated = Caret.origin.after (x.text ++ content.take k)) :
    token.source = b.base.caret start ∧ token.name = name := by
  have render : b.render = x.text ++ (content ++ y.text) := by rw [← text_trace, run]; simp
  have length : x.text.length = x.length := List.length_map _
  have upto : x.text ++ content.take k = b.render.take (x.length + k) := by
    rw [render, ← length, List.take_length_add_append,
      List.take_append_of_le_length (Nat.le_of_lt hk)]
  have within : x.length + k < b.render.length := by
    rw [render, List.length_append, List.length_append, length]
    omega
  rw [upto] at here
  -- the character belongs to the replacement, so its origin is the start of the chunk
  obtain ⟨⟨ch, o⟩, shown, made⟩ :=
    Option.bind_eq_some_iff.1 (h.tokenAt?_of_generated mem within here)
  have size : (Trace.replaced start name true content).length = content.length := by
    have text := congrArg List.length (Trace.text_replaced start name true content)
    rwa [Trace.text, List.length_map] at text
  rw [run, List.getElem?_append_right (Nat.le_add_right _ _), Nat.add_sub_cancel_left,
    List.getElem?_append_left (by rw [size]; exact hk)] at shown
  obtain ⟨opens, rfl⟩ := Trace.mem_replaced (List.mem_of_getElem? shown)
  obtain ⟨⟨source, named⟩, place, rfl⟩ := Option.map_eq_some_iff.1 made
  simp only [Origin.place?] at place
  split at place
  · cases place
    exact ⟨rfl, rfl⟩
  · cases place

/-- A replacement that is not empty has a token where it starts. -/
theorem exists_token_of_replaced (split : b.chunks = pre ++ c :: post) {content : Text}
    {named : Bool} (body : c.body = .replaced content named) (ne : content ≠ []) (hires : Bool) :
    ∃ token ∈ b.tokens hires, token.generated =
      Caret.origin.after (b.front ++ pre.flatMap Chunk.render ++ c.before) := by
  have filled : content.isEmpty = false := List.isEmpty_eq_false_iff.2 ne
  rw [← List.singleton_append, ← List.append_assoc] at split
  rw [tokens_around split]
  refine ⟨⟨Caret.origin.after (b.front ++ pre.flatMap Chunk.render ++ c.before),
    (LineIndex.ofText b.base).locate c.start,
    if named then some (Text.slice b.base c.start c.stop) else none⟩,
    List.mem_append_right _ (List.mem_append_left _ ?_), rfl⟩
  simp [stretchesOf, body, filled, Stretch.tokensOfAll, Stretch.tokens, Stretch.text,
    Stretch.replacedTokens_lines _ _ _ _ fun _ => ne]

/-- A range up to the next cut is the whole range only if it is not cut inside. -/
theorem Tiled.slice_nextCut_iff (h : b.Tiled) {start stop : Nat}
    (hs : Text.isBoundary b.base start = true) (he : Text.isBoundary b.base stop = true) :
    Text.slice b.base start (b.nextCut start stop) = Text.slice b.base start stop ↔
      b.isWhole start stop = true := by
  rw [isWhole_iff]
  constructor
  · intro same
    rcases b.nextCut_cases start stop with eq | ⟨c, hc, behind, eq⟩
    · exact eq
    · have boundary := (h.tiles.placed hc).start_boundary
      have le := b.nextCut_le start stop
      rw [← eq] at same le ⊢
      -- the part behind the cut would have to be empty
      rw [← Text.slice_append_slice hs boundary he (Nat.le_of_lt behind) le,
        List.self_eq_append_right] at same
      by_contra apart
      exact Text.slice_ne_nil boundary he (Nat.lt_of_le_of_ne le apart) same
  · intro eq
    rw [eq]

end Buffer

/-- **What a replacement records as its name.** When a range is replaced by a text that is not
empty, and the name is to be stored, then in every map of the buffer the text has a token where it
starts, and each token that starts in it leads to the start of the range and carries the base up to
the next cut. This is the text that was replaced if and only if the range was not cut inside. -/
theorem stored_name_up_to_next_cut (t : Text) (filename : Option String) (edits : List Edit)
    (start stop : Nat) (content : Text) (contentOnly : Bool) (options : MapOptions) :
    let b : Buffer := { (Buffer.ofText t).run edits with filename }
    let replaced := (Edit.overwrite start stop content { storeName := true, contentOnly }).apply b
    let front := b.shownBefore start ++ if contentOnly then b.rightOf start else []
    let name := Text.slice t start (b.nextCut start stop)
    let tokens := (replaced.left.sourceMap options).tokens
    replaced.accepted = true → content ≠ [] →
      (∃ back, replaced.left.render = front ++ content ++ back) ∧
        (∃ token ∈ tokens, token.generated = Caret.origin.after front) ∧
        (∀ token ∈ tokens, ∀ k < content.length,
          token.generated = Caret.origin.after (front ++ content.take k) →
            token.source = t.caret start ∧ token.name = some name) ∧
        (name = Text.slice t start stop ↔ b.isWhole start stop = true) := by
  intro b replaced front name tokens ok ne
  have base : b.base = t := Buffer.run_base _ edits
  obtain ⟨m, laid⟩ := Buffer.laidOut_reached (base ▸ Buffer.base_ne_of_overwrite ok) filename edits
  obtain ⟨lt, hs, he, left⟩ := laid.left_overwrite ok
  obtain ⟨pre, first, rest, post, parts⟩ := laid.exists_parts lt hs he
  have tiled : replaced.left.Tiled := laid.tiled.apply _
  have base' : replaced.left.base = t := (Buffer.apply_base _ _).trans base
  have split := parts.replaceChunks laid.base_ne lt content { storeName := true, contentOnly }
  rw [← left] at split
  have shown : replaced.left.front ++ pre.flatMap Chunk.render ++
      (first.replace content true contentOnly).before = front := by
    have same : replaced.left.front = b.front := by rw [left]; rfl
    have rim : (first.replace content true contentOnly).before =
        if contentOnly then b.rightOf start else [] := by
      rw [Chunk.replace, parts.before_eq laid hs he]
    rw [same, parts.front_eq laid.base_ne lt, rim]
  obtain ⟨x, y, run, text⟩ := Buffer.trace_of_replaced split rfl
  rw [shown] at text
  refine ⟨?_, ?_, ?_, ?_⟩
  · rw [← Buffer.text_trace, run]
    exact ⟨y.text, by simp [text]⟩
  · rw [← shown]
    exact Buffer.exists_token_of_replaced split rfl ne options.hires
  · intro token mem k hk here
    rw [← text] at here
    have told := tiled.token_of_replaced run ((Buffer.tokens_sublist _ _).mem mem) hk here
    have start_eq : (first.replace content true contentOnly).start = start := parts.start_eq
    have stop_eq : (first.replace content true contentOnly).stop = b.nextCut start stop :=
      parts.stop_eq laid.tiled laid.base_ne
    rwa [base', start_eq, stop_eq] at told
  · have whole := laid.tiled.slice_nextCut_iff (Layout.admits_iff.1 hs).1 (Layout.admits_iff.1 he).1
    rwa [base] at whole

/-- Text was put in inside the range, so only what is in front of it is recorded. -/
theorem stored_name_ends_at_insertion :
    let b : Buffer := { (Buffer.ofText "abcdef".toList).run [.appendLeft 3 ['x']] with
      filename := none }
    let replaced := (Edit.overwrite 1 5 ['Z'] { storeName := true, contentOnly := false }).apply b
    let token : Token := ⟨⟨0, 1⟩, ⟨0, 1⟩, some "bc".toList⟩
    replaced.accepted = true ∧ replaced.left.render = "aZf".toList ∧
      token ∈ (replaced.left.sourceMap {}).tokens ∧
      token.name = some (Text.slice "abcdef".toList 1 (b.nextCut 1 5)) ∧
      Text.slice "abcdef".toList 1 5 = "bcde".toList := by
  intro b replaced token
  have accepted : replaced.accepted = true := by decide
  have there : token ∈ (replaced.left.sourceMap {}).tokens := by decide
  have law := stored_name_up_to_next_cut "abcdef".toList none [.appendLeft 3 ['x']] 1 5 ['Z'] false
    {} accepted (by decide)
  exact ⟨accepted, by decide, there, (law.2.2.1 token there 0 (by decide) (by decide)).2, by decide⟩

end ComponentEdit
