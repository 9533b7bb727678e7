import ComponentEdit.Proofs.SourceMap.LineTokens

/-!
# What a map of one token a line says between its tokens

The tokens of a map stand in the order of the rendered text (`Buffer.Tiled.tokens_ordered`), and a
map of one token a line has some of those of the map of every character
(`Stretch.tokensOfAll_sublist`). What it leaves out can be told from what it has: a consumer that
goes by the last token in front of a caret of the line (`Token.governing?`) finds, at every
character copied from the base, the first one of its line in the same chunk, and nothing stands
between the two but the text copied with them. So it is led to the right line, and as many columns
further as it is itself (`coarse_map_interpolates`).
-/

namespace ComponentEdit
set_option autoImplicit false

/-- The token that a consumer of a map goes by at a caret: the last one of the line that does not
stand behind it. -/
def Token.governing? (tokens : List Token) (here : Caret) : Option Token :=
  (tokens.filter fun u =>
    u.generated.line = here.line ∧ u.generated.column ≤ here.column).getLast?

/-- What stands behind the caret does not govern it. -/
theorem Token.governing?_eq_some {front back : List Token} {u : Token} {here : Caret}
    (line : u.generated.line = here.line) (column : u.generated.column ≤ here.column)
    (behind : ∀ v ∈ back, here.Before v.generated) :
    governing? (front ++ u :: back) here = some u := by
  have none : back.filter (fun v =>
      v.generated.line = here.line ∧ v.generated.column ≤ here.column) = [] := by
    refine List.filter_eq_nil_iff.2 fun v hv => ?_
    have before := behind v hv
    unfold Caret.Before at before
    simp only [decide_eq_true_eq]
    omega
  rw [governing?, List.filter_append, List.filter_cons_of_pos (by simp [line, column]), none]
  simp

namespace Stretch

/-- A walk that leaves tokens out makes some of those of a walk over every character. -/
theorem copiedTokens_sublist (isFirst isFirst' : Bool) (here source : Caret) (t : Text) :
    (copiedTokens false isFirst here source t).Sublist
      (copiedTokens true isFirst' here source t) := by
  induction t generalizing isFirst isFirst' here source with
  | nil => exact List.Sublist.refl _
  | cons c t ih =>
    by_cases h : c = '\n'
    · simpa [copiedTokens, h] using ih true true here.nextLine source.nextLine
    · have rest := ih false false (here.step c) (source.step c)
      cases isFirst with
      | true => simpa [copiedTokens, h] using rest
      | false => simpa [copiedTokens, h] using rest.cons _

theorem tokens_sublist (here : Caret) (s : Stretch) :
    (s.tokens false here).Sublist (s.tokens true here) := by
  cases s with
  | attached t => exact List.Sublist.refl _
  | replaced t source name => exact List.Sublist.refl _
  | copied t source => exact copiedTokens_sublist true true here source t

theorem tokensOfAll_sublist (here : Caret) (ss : List Stretch) :
    (tokensOfAll false here ss).Sublist (tokensOfAll true here ss) := by
  induction ss generalizing here with
  | nil => exact List.Sublist.refl _
  | cons s ss ih => exact (tokens_sublist here s).append (ih _)

/-- Within a line there is no token. -/
theorem copiedTokens_inside {t : Text} (single : '\n' ∉ t) (here source : Caret) :
    copiedTokens false false here source t = [] := by
  induction t generalizing here source with
  | nil => rfl
  | cons c t ih =>
    rw [List.mem_cons, not_or] at single
    simp [copiedTokens, Ne.symm single.1, ih single.2]

theorem opensAfter_of_not_mem {t : Text} (single : '\n' ∉ t) : opensAfter false t = false := by
  induction t with
  | nil => rfl
  | cons c t ih =>
    rw [List.mem_cons, not_or] at single
    rw [opensAfter, beq_false_of_ne (Ne.symm single.1), ih single.2]

/-- Of a line the first character has a token, and the next one is behind the line. -/
theorem copiedTokens_line (here source : Caret) {line : Text} {c : Char} (single : '\n' ∉ line)
    (other : c ≠ '\n') (r : Text) :
    copiedTokens false true here source (line ++ c :: r) = ⟨here, source, none⟩ ::
      copiedTokens false false ((here.after line).step c) ((source.after line).step c) r := by
  have opening : ∃ d t, line ++ c :: r = d :: t ∧ d ≠ '\n' := by
    cases line with
    | nil => exact ⟨c, r, rfl, other⟩
    | cons d line => exact ⟨d, line ++ c :: r, rfl, fun h => single (h ▸ List.mem_cons_self)⟩
  obtain ⟨d, t, eq, visible⟩ := opening
  rw [eq, copiedTokens_opening _ _ _ visible, ← eq, copiedTokens_append,
    copiedTokens_inside single, opensAfter_of_not_mem single]
  simp [copiedTokens, other]

end Stretch

namespace Buffer
variable {b : Buffer} {c : Chunk} {token : Token}

theorem tokens_sublist (b : Buffer) (hires : Bool) : (b.tokens hires).Sublist (b.tokens true) := by
  cases hires with
  | true => exact List.Sublist.refl _
  | false =>
    rw [tokens_eq, tokens_eq]
    exact Stretch.tokensOfAll_sublist _ _

/-- The tokens of a map stand one behind the other. -/
theorem Tiled.tokens_ordered (h : b.Tiled) (hires : Bool) :
    (b.tokens hires).Pairwise fun x y => x.generated.Before y.generated := by
  refine List.Pairwise.sublist (b.tokens_sublist hires) ?_
  rw [h.tokens_eq_filterMap, List.pairwise_filterMap]
  refine List.pairwise_lt_range.imp_of_mem ?_
  intro j k _ hk lt x hx y hy
  rw [generated_of_tokenAt? hx, generated_of_tokenAt? hy]
  exact Caret.before_after_take _ (Nat.le_of_lt (List.mem_range.1 hk)) lt

/-- A token that starts where a copied character is rendered comes from that character. -/
theorem Tiled.source_of_copied (h : b.Tiled) (mem : token ∈ b.tokens true) {k : Nat} {ch : Char}
    {i : Nat} (copied : b.trace[k]? = some (ch, .copied i))
    (here : token.generated = Caret.origin.after (b.render.take k)) :
    ch ≠ '\n' ∧ token = ⟨token.generated, b.base.caret i, none⟩ := by
  have hk : k < b.trace.length := (List.getElem?_eq_some_iff.1 copied).1
  rw [length_trace] at hk
  have made := h.tokenAt?_of_generated mem hk here
  rw [tokenAt?, copied, Option.bind_some] at made
  simp only [Origin.token?, Origin.place?] at made
  split at made
  · cases made
  · rename_i visible
    cases made
    exact ⟨visible, rfl⟩

/-- The tokens of a buffer from a place in the body of a copied chunk on. -/
theorem tokens_copied {pre post : List Chunk} (split : b.chunks = pre ++ c :: post) {s r : Text}
    (body : c.body = .copied (s ++ r)) {start source : Caret}
    (start_eq : start = Caret.origin.after (b.front ++ pre.flatMap Chunk.render ++ c.before))
    (source_eq : source = (LineIndex.ofText b.base).locate c.start)
    (hires : Bool) : ∃ front, b.tokens hires = front ++
      (Stretch.copiedTokens hires (Stretch.opensAfter true s) (start.after s) (source.after s) r ++
        Stretch.tokensOfAll hires (start.after (s ++ r))
          (.attached c.after :: post.flatMap b.stretchesOf ++ [.attached b.back])) := by
  have row : b.stretches = (.attached b.front :: pre.flatMap b.stretchesOf ++
      [.attached c.before]) ++ .copied (s ++ r) source ::
        (.attached c.after :: post.flatMap b.stretchesOf ++ [.attached b.back]) := by
    simp [stretches, split, stretchesOf, body, source_eq]
  have front : List.flatMap Stretch.text (.attached b.front :: pre.flatMap b.stretchesOf ++
      [.attached c.before]) = b.front ++ pre.flatMap Chunk.render ++ c.before := by
    simp [Stretch.text, text_flatMap_stretchesOf]
  rw [tokens_eq, row, Stretch.tokensOfAll_append, front, ← start_eq, Stretch.tokensOfAll,
    Stretch.tokens, Stretch.copiedTokens_append, Stretch.text, List.append_assoc,
    ← List.append_assoc]
  exact ⟨_, rfl⟩

end Buffer

/-- Walking over the front part of a copied body leads to its place in the base. -/
theorem Chunk.Placed.caret_copied {base : Text} {c : Chunk} (h : c.Placed base) {s r : Text}
    (body : c.body = .copied (s ++ r)) :
    base.caret (c.start + Text.byteSize s) = (base.caret c.start).after s := by
  obtain ⟨p, q, rfl, lo, -⟩ := h.exists_around body
  have upto := Text.caret_byteSize_append (p ++ s) (r ++ q)
  rw [Text.byteSize_append, List.append_assoc p, ← List.append_assoc s] at upto
  rw [lo, upto, Text.caret_byteSize_append, Caret.after_append]

namespace Buffer
variable {b : Buffer} {c : Chunk} {pre post : List Chunk} {token : Token}

/-- A token that starts where a copied character is rendered, by the chunk that shows it. -/
theorem Tiled.exists_copied_place (h : b.Tiled) (mem : token ∈ b.tokens true) {k : Nat} {ch : Char}
    {i : Nat} (copied : b.trace[k]? = some (ch, .copied i))
    (here : token.generated = Caret.origin.after (b.render.take k)) :
    ∃ pre c post s r, b.chunks = pre ++ c :: post ∧ c.body = .copied (s ++ ch :: r) ∧ ch ≠ '\n' ∧
      token.generated =
        (Caret.origin.after (b.front ++ pre.flatMap Chunk.render ++ c.before)).after s ∧
      token.source = ((LineIndex.ofText b.base).locate c.start).after s := by
  obtain ⟨visible, token_eq⟩ := h.source_of_copied mem copied here
  obtain ⟨hk, shown⟩ := List.getElem?_eq_some_iff.1 copied
  have split : b.trace = b.trace.take k ++ (ch, .copied i) :: b.trace.drop (k + 1) := by
    rw [← shown, List.getElem_cons_drop, List.take_append_drop]
  obtain ⟨pre, c, post, s, r, chunks, body, rfl, text⟩ := exists_chunk_of_trace_eq split
  have placed := h.tiles.placed (c := c) (by simp [chunks])
  refine ⟨pre, c, post, s, r, chunks, body, visible, ?_, ?_⟩
  · rw [here, ← Caret.after_append, ← text, ← text_trace, Trace.text, Trace.text, List.map_take]
  · rw [token_eq, LineIndex.locate_eq_caret placed.start_boundary, placed.caret_copied body]

/-- At any character of a line of a copied chunk the first one of the line governs. -/
theorem Tiled.governing?_copied (h : b.Tiled) (split : b.chunks = pre ++ c :: post)
    {start source : Caret}
    (start_eq : start = Caret.origin.after (b.front ++ pre.flatMap Chunk.render ++ c.before))
    (source_eq : source = (LineIndex.ofText b.base).locate c.start) {p line r : Text} {ch : Char}
    (body : c.body = .copied (p ++ line ++ ch :: r)) (opens : Stretch.opensAfter true p = true)
    (single : '\n' ∉ line) (visible : ch ≠ '\n') :
    Token.governing? (b.tokens false) ((start.after p).after line) =
      some ⟨start.after p, source.after p, none⟩ := by
  obtain ⟨front, fine⟩ := tokens_copied split body start_eq source_eq true
  rw [List.append_assoc] at body
  obtain ⟨front', coarse⟩ := tokens_copied split body start_eq source_eq false
  rw [opens, Stretch.copiedTokens_line _ _ single visible] at coarse
  have ordered := h.tokens_ordered true
  -- behind the character the map of every character has all tokens that the other one has
  rw [fine, Stretch.copiedTokens, if_neg visible, Bool.true_or, if_pos rfl, List.cons_append,
    List.pairwise_append, List.pairwise_cons] at ordered
  rw [coarse, List.cons_append]
  refine Token.governing?_eq_some ?_ ?_ fun v hv => ?_
  · rw [Caret.after_of_not_mem _ single]
  · rw [Caret.after_of_not_mem _ single]
    exact Nat.le_add_right _ _
  · have later := ordered.2.1.1 v
    simp only [Caret.after_append, List.append_assoc] at later hv
    exact later (((Stretch.copiedTokens_sublist _ _ _ _ _).append
      (Stretch.tokensOfAll_sublist _ _)).mem hv)

/-- At a copied character a map of one token a line is governed by a token of the line that the
character comes from, as far in front of it as in the rendered text. -/
theorem Tiled.exists_governing (h : b.Tiled) (mem : token ∈ b.tokens true) {k : Nat} {ch : Char}
    {i : Nat} (copied : b.trace[k]? = some (ch, .copied i))
    (here : token.generated = Caret.origin.after (b.render.take k)) :
    ∃ u, Token.governing? (b.tokens false) token.generated = some u ∧
      u.source.line = token.source.line ∧
      (token.source.column : Int) - u.source.column =
        (token.generated.column : Int) - u.generated.column := by
  obtain ⟨pre, c, post, s, r, split, body, visible, generated, source⟩ :=
    h.exists_copied_place mem copied here
  obtain ⟨p, line, rfl, single, shape⟩ := Text.exists_last_line s
  have opens : Stretch.opensAfter true p = true := by
    rcases shape with rfl | ⟨p, rfl⟩
    · rfl
    · rw [Stretch.opensAfter_concat]
      rfl
  have governs := h.governing?_copied split rfl rfl body opens single visible
  rw [Caret.after_append] at generated source
  rw [← generated] at governs
  rw [Caret.after_of_not_mem _ single] at generated source
  refine ⟨_, governs, ?_, ?_⟩
  · rw [source]
  · rw [source, generated]
    dsimp only
    omega

end Buffer

/-- **A map of one token a line tells the places of all the characters that a map of every
character has.** Its tokens are tokens of the other map. At a token of the other map for a copied
character it is governed by a token of the same line of the source, from which both the rendered
text and the source go on by the same number of columns. -/
theorem coarse_map_interpolates (t : Text) (filename : Option String) (edits : List Edit)
    (options : MapOptions) :
    let b : Buffer := { (Buffer.ofText t).run edits with filename }
    let fine := (b.sourceMap { options with hires := true }).tokens
    let coarse := (b.sourceMap { options with hires := false }).tokens
    (∀ u ∈ coarse, u ∈ fine) ∧
      ∀ token ∈ fine, ∀ (k : Nat) (c : Char) (i : Nat),
        b.trace[k]? = some (c, Origin.copied i) →
        token.generated = Caret.origin.after (b.render.take k) →
        ∃ u, Token.governing? coarse token.generated = some u ∧
          u.source.line = token.source.line ∧
          (token.source.column : Int) - u.source.column =
            (token.generated.column : Int) - u.generated.column := by
  intro b fine coarse
  have tiled : b.Tiled := Buffer.tiled_reached t filename edits
  constructor
  · intro u hu
    exact (b.tokens_sublist false).mem hu
  · intro token mem k c i copied here
    exact tiled.exists_governing mem copied here

/-- Behind text with a line break that was put in inside a line, the last character of the line is
found by the first one behind that text. -/
theorem coarse_map_interpolates_behind_insertion :
    let b : Buffer := { (Buffer.ofText "ab\ncde".toList).run [.appendLeft 4 "x\ny".toList] with
      filename := none }
    let token : Token := ⟨⟨2, 2⟩, ⟨1, 2⟩, none⟩
    token ∈ (b.sourceMap { hires := true }).tokens ∧ token ∉ (b.sourceMap {}).tokens ∧
      ∃ u, Token.governing? (b.sourceMap {}).tokens token.generated = some u ∧
        u.source.line = token.source.line ∧
        (token.source.column : Int) - u.source.column =
          (token.generated.column : Int) - u.generated.column := by
  intro b token
  have there : token ∈ (b.sourceMap { hires := true }).tokens := by decide
  refine ⟨there, by decide, ?_⟩
  exact (coarse_map_interpolates "ab\ncde".toList none [.appendLeft 4 "x\ny".toList] {}).2 token
    there 8 'e' 5 (by decide) (by decide)

end ComponentEdit
