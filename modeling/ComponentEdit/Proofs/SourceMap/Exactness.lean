import ComponentEdit.Proofs.Buffer.Trace
import ComponentEdit.Proofs.SourceMap.Walk
import ComponentEdit.SourceMap.Basic

/-!
# What a source map maps

A map of every character has a token for each character of the rendered text whose origin is
a place in the base (`Origin.place?`), in their order, and no others (`hires_tokens_exact`). The
tokens of a buffer are those of its stretches (`Buffer.tokens_eq`). A copied text makes the tokens
of its characters (`Stretch.tokens_copied`), and so does a replacement, although it is gone over
line by line (`Stretch.tokens_replaced`). So a chunk makes those of its trace
(`tokensOfAll_chunk`).
-/

namespace ComponentEdit
set_option autoImplicit false

/-- The place in the base that a character is mapped to, and the name of its token. -/
def Origin.place? (base : Text) (c : Char) : Origin → Option (Caret × Option Text)
  | .attached => none
  | .copied i => if c = '\n' then none else some (base.caret i, none)
  | .replaced start name opens => if opens then some (base.caret start, name) else none

/-- The token of a character that is rendered at `here`. -/
def Origin.token? (base : Text) (here : Caret) (c : Char) (o : Origin) : Option Token :=
  (o.place? base c).map fun (source, name) => ⟨here, source, name⟩

/-- The tokens of the characters of a trace that is rendered from `here` on. -/
def Trace.tokens (base : Text) : (here : Caret) → Trace → List Token
  | _, [] => []
  | here, (c, o) :: tr => (o.token? base here c).toList ++ tokens base (here.step c) tr

/-- The token of the character of that number in the rendered text. -/
def Buffer.tokenAt? (b : Buffer) (k : Nat) : Option Token :=
  b.trace[k]?.bind fun (c, o) => o.token? b.base (Caret.origin.after (b.render.take k)) c

namespace Trace
variable {base : Text}

theorem tokens_append (base : Text) (here : Caret) (x y : Trace) :
    (x ++ y).tokens base here = x.tokens base here ++ y.tokens base (here.after x.text) := by
  induction x generalizing here with
  | nil => rfl
  | cons p x ih =>
    obtain ⟨c, o⟩ := p
    simp [tokens, ih]

@[simp] theorem tokens_attached (base : Text) (here : Caret) (t : Text) :
    (attached t).tokens base here = [] := by
  induction t generalizing here with
  | nil => rfl
  | cons c t ih =>
    have rest := ih (here.step c)
    simpa [attached, tokens, Origin.token?, Origin.place?] using rest

/-- The tokens of a trace, character by character. -/
theorem tokens_eq_filterMap (base : Text) (here : Caret) (tr : Trace) :
    tr.tokens base here = (List.range tr.length).filterMap fun k =>
      tr[k]?.bind fun (c, o) => o.token? base (here.after (tr.text.take k)) c := by
  induction tr generalizing here with
  | nil => rfl
  | cons p tr ih =>
    obtain ⟨c, o⟩ := p
    rw [tokens, ih, List.length_cons, List.range_succ_eq_map, List.filterMap_cons,
      List.filterMap_map]
    cases h : o.token? base here c <;> simp [h, Function.comp_def]

end Trace

namespace Stretch
variable {base : Text}

/-- Walking over a copied text in step with the base makes the token of each character. -/
theorem tokens_copied (p t q : Text) (isFirst : Bool) (here : Caret) :
    copiedTokens true isFirst here (Caret.origin.after p) t =
      (Trace.copied (Text.byteSize p) t).tokens (p ++ t ++ q) here := by
  induction t generalizing p isFirst here with
  | nil => rfl
  | cons c t ih =>
    have rest := ih (p ++ [c])
    have size : Text.byteSize (p ++ [c]) = Text.byteSize p + c.utf8Size := by simp
    have place : (p ++ c :: t ++ q).caret (Text.byteSize p) = Caret.origin.after p := by
      rw [List.append_assoc, Text.caret_byteSize_append]
    rw [size, List.append_assoc p [c] t, List.singleton_append] at rest
    by_cases h : c = '\n'
    · subst h
      have next : Caret.origin.after (p ++ ['\n']) = (Caret.origin.after p).nextLine := by
        simp [Caret.step]
      rw [next] at rest
      simp only [copiedTokens, if_true, rest, Trace.copied, Trace.tokens, Origin.token?,
        Origin.place?, Option.map_none, Option.toList_none, List.nil_append, Caret.step]
    · have next : Caret.origin.after (p ++ [c]) = (Caret.origin.after p).step c := by simp
      rw [next] at rest
      simp only [copiedTokens, if_neg h, Bool.true_or, if_true, rest, Trace.copied, Trace.tokens,
        Origin.token?, Origin.place?, place, Option.map_some, Option.toList_some,
        List.singleton_append]

/-- The first line of a text has a token unless the text ends with it and it is empty. -/
theorem replacedTokens_lines (source : Caret) (name : Option Text) (isFirst : Bool) (here : Caret)
    {t : Text} (ne : isFirst = true → t ≠ []) :
    replacedTokens source name isFirst here (Text.lines t) =
      (if t.isEmpty then [] else [⟨here, source, name⟩]) ++
        replacedTokens source name false here.nextLine (Text.lines t).tail := by
  cases t with
  | nil =>
    have later : isFirst = false := by simpa using ne
    simp [Text.lines, replacedTokens, later]
  | cons c t =>
    obtain ⟨l, ls, -, step⟩ := Text.lines_cons c t
    rw [step]
    split <;> simp [replacedTokens_cons]

/-- The tokens of the characters that open lines, the first of which may have been opened before. -/
theorem tokens_opening (base : Text) (start : Nat) (name : Option Text) (opens : Bool)
    (here : Caret) (t : Text) :
    (Trace.replaced start name opens t).tokens base here =
      (if opens && !t.isEmpty then [⟨here, base.caret start, name⟩] else []) ++
        replacedTokens (base.caret start) name false here.nextLine (Text.lines t).tail := by
  induction t generalizing opens here with
  | nil => simp [Trace.replaced, Trace.tokens, Text.lines, replacedTokens]
  | cons c t ih =>
    obtain ⟨l, ls, eq, step⟩ := Text.lines_cons c t
    have opening : ((Origin.replaced start name opens).token? base here c).toList =
        if opens && !(c :: t).isEmpty then [⟨here, base.caret start, name⟩] else [] := by
      cases opens <;> rfl
    rw [Trace.replaced, Trace.tokens, ih, opening, step]
    by_cases h : c = '\n'
    · -- the line break opens the first line of what follows
      have next : here.step c = here.nextLine := by rw [Caret.step, if_pos h]
      rw [if_pos h, List.tail_cons, ← eq, replacedTokens_lines _ _ _ _ (by simp), next]
      cases t <;> simp [h]
    · have same : (here.step c).nextLine = here.nextLine := by simp [Caret.step, h, Caret.nextLine]
      simp [h, same, eq]

/-- Going through a replacement line by line makes the tokens of the characters that open lines. -/
theorem tokens_replaced (base : Text) (start : Nat) (name : Option Text) (here : Caret) {t : Text}
    (ne : t ≠ []) :
    replacedTokens (base.caret start) name true here (Text.lines t) =
      (Trace.replaced start name true t).tokens base here := by
  rw [tokens_opening, replacedTokens_lines _ _ _ _ fun _ => ne]
  simp [ne]

end Stretch

namespace Buffer
variable {b : Buffer}

/-- The stretches of a chunk make the tokens of its trace. -/
theorem Tiled.tokensOfAll_chunk (h : b.Tiled) {c : Chunk} (hc : c ∈ b.chunks) (here : Caret)
    (rest : List Stretch) :
    Stretch.tokensOfAll true here (b.stretchesOf c ++ rest) =
      (c.trace b.base).tokens b.base here ++
        Stretch.tokensOfAll true (here.after c.render) rest := by
  have placed := h.tiles.placed hc
  have source := LineIndex.locate_eq_caret placed.start_boundary
  cases hb : c.body with
  | copied t =>
    obtain ⟨p, q, base, lo, -⟩ := placed.exists_around hb
    have walk := Stretch.tokens_copied p t q true (here.after c.before)
    rw [← Text.caret_byteSize_append p (t ++ q), ← base, List.append_assoc, ← base, ← lo] at walk
    simp [stretchesOf, Stretch.tokensOfAll, Stretch.tokens, Stretch.text, Chunk.trace, Chunk.render,
      Body.text, hb, source, Trace.tokens_append, walk]
  | replaced t named =>
    by_cases blank : t = []
    · simp [stretchesOf, Stretch.tokensOfAll, Stretch.tokens, Stretch.text, Chunk.trace,
        Chunk.render, Body.text, hb, Trace.tokens_append, blank, Trace.replaced]
    · have walk := Stretch.tokens_replaced b.base c.start
        (if named then some (Text.slice b.base c.start c.stop) else none) (here.after c.before)
        blank
      simp [stretchesOf, Stretch.tokensOfAll, Stretch.tokens, Stretch.text, Chunk.trace,
        Chunk.render, Body.text, hb, source, Trace.tokens_append, blank, walk]

theorem Tiled.tokensOfAll_chunks (h : b.Tiled) {cs : List Chunk} (hcs : ∀ c ∈ cs, c ∈ b.chunks)
    (here : Caret) (rest : List Stretch) :
    Stretch.tokensOfAll true here (cs.flatMap b.stretchesOf ++ rest) =
      Trace.tokens b.base here (cs.flatMap (Chunk.trace b.base)) ++
        Stretch.tokensOfAll true (here.after (cs.flatMap Chunk.render)) rest := by
  induction cs generalizing here with
  | nil => rfl
  | cons c cs ih =>
    rw [List.flatMap_cons, List.append_assoc, h.tokensOfAll_chunk (hcs c List.mem_cons_self),
      ih fun d hd => hcs d (List.mem_cons_of_mem _ hd)]
    simp [Trace.tokens_append]

/-- A map of every character has the tokens of the trace. -/
theorem Tiled.tokens_hires (h : b.Tiled) :
    b.tokens true = b.trace.tokens b.base Caret.origin := by
  rw [tokens_eq, stretches, List.cons_append, Stretch.tokensOfAll,
    h.tokensOfAll_chunks fun _ hc => hc]
  simp [Stretch.tokens, Stretch.text, Stretch.tokensOfAll, trace, Trace.tokens_append]

theorem length_trace (b : Buffer) : b.trace.length = b.render.length := by
  rw [← text_trace, Trace.text, List.length_map]

theorem Tiled.tokens_eq_filterMap (h : b.Tiled) :
    b.tokens true = (List.range b.render.length).filterMap b.tokenAt? := by
  rw [h.tokens_hires, Trace.tokens_eq_filterMap, length_trace, text_trace]
  rfl

theorem generated_of_tokenAt? {token : Token} {k : Nat} (h : b.tokenAt? k = some token) :
    token.generated = Caret.origin.after (b.render.take k) := by
  obtain ⟨⟨c, o⟩, -, made⟩ := Option.bind_eq_some_iff.1 h
  obtain ⟨⟨source, name⟩, -, rfl⟩ := Option.map_eq_some_iff.1 made
  rfl

/-- Every token is that of a character of the rendered text. -/
theorem Tiled.exists_of_mem_tokens (h : b.Tiled) {token : Token} (mem : token ∈ b.tokens true) :
    ∃ k < b.render.length, b.tokenAt? k = some token := by
  rw [h.tokens_eq_filterMap] at mem
  obtain ⟨k, hk, made⟩ := List.mem_filterMap.1 mem
  exact ⟨k, List.mem_range.1 hk, made⟩

/-- A token is that of the character that is rendered where it starts. -/
theorem Tiled.tokenAt?_of_generated (h : b.Tiled) {token : Token} (mem : token ∈ b.tokens true)
    {k : Nat} (hk : k < b.render.length)
    (here : token.generated = Caret.origin.after (b.render.take k)) :
    b.tokenAt? k = some token := by
  obtain ⟨j, hj, made⟩ := h.exists_of_mem_tokens mem
  obtain rfl : j = k := Caret.after_take_inj (Nat.le_of_lt hj) (Nat.le_of_lt hk)
    ((generated_of_tokenAt? made).symm.trans here)
  exact made

/-- No token starts where attached text is rendered. -/
theorem Tiled.generated_ne_of_attached (h : b.Tiled) {token : Token} (mem : token ∈ b.tokens true)
    {k : Nat} {c : Char} (attached : b.trace[k]? = some (c, .attached)) :
    token.generated ≠ Caret.origin.after (b.render.take k) := by
  intro here
  have hk : k < b.trace.length := (List.getElem?_eq_some_iff.1 attached).1
  rw [length_trace] at hk
  have made := h.tokenAt?_of_generated mem hk here
  simp [tokenAt?, attached, Origin.token?, Origin.place?] at made

end Buffer

/-- The map of every character has, in the order of the rendered text, a token for each
character that is copied from the base and no line break, from its caret there to its caret in
the base, and one for each character that opens a line of a replacement, to the start of what
it replaced; no token starts in attached text. -/
theorem hires_tokens_exact (t : Text) (filename : Option String) (edits : List Edit)
    (options : MapOptions) :
    let b : Buffer := { (Buffer.ofText t).run edits with filename }
    let tokens := (b.sourceMap { options with hires := true }).tokens
    tokens = (List.range b.render.length).filterMap b.tokenAt? ∧
      b.trace.text = b.render ∧
      (∀ (k : Nat) (c : Char) (i : Nat), b.trace[k]? = some (c, Origin.copied i) →
        Text.isBoundary t i = true ∧ Text.charAt t i = [c]) ∧
      ∀ token ∈ tokens, ∀ (k : Nat) (c : Char), b.trace[k]? = some (c, Origin.attached) →
        token.generated ≠ Caret.origin.after (b.render.take k) := by
  intro b tokens
  have tiled : b.Tiled := by
    have run := (Buffer.tiled_ofText t).run edits
    exact ⟨run.tiles, run.single⟩
  refine ⟨tiled.tokens_eq_filterMap, Buffer.text_trace b, ?_, ?_⟩
  · intro k c i shown
    obtain ⟨hk, shown⟩ := List.getElem?_eq_some_iff.1 shown
    have split : b.trace = b.trace.take k ++ (c, .copied i) :: b.trace.drop (k + 1) := by
      rw [← shown, List.getElem_cons_drop, List.take_append_drop]
    have base : b.base = t := Buffer.run_base _ edits
    rw [← base]
    exact tiled.copied_of_trace_eq split
  · intro token mem k c attached
    exact tiled.generated_ne_of_attached mem attached

end ComponentEdit
