import ComponentEdit.Document.Basic
import ComponentEdit.Proofs.Block.Creation
import Mathlib.Data.List.Forall2

/-!
# Parsing a document is all or nothing

A report of a parser is a list of blocks to be made over the current text. They are made one after
the other, and the first that cannot be made ends the parse (`mapM_eq_error_iff`). Only when all of
them are made does the document take them, grouped by role and in the order of the report
(`RoleLists.get_ofList`). What a document can be refused for is spelled out as `Document.Refuses`,
and what a block has to be as `ParsedBlock.Gives`; neither refers to how the blocks are made.
-/

namespace ComponentEdit
set_option autoImplicit false

section Sequence
variable {α β ε : Type} {f : α → Except ε β} {as : List α}

/-- A sequence of steps that all succeed gives the result of each. -/
theorem mapM_eq_ok_iff {bs : List β} :
    as.mapM f = .ok bs ↔ List.Forall₂ (fun a b => f a = .ok b) as bs := by
  induction as generalizing bs with
  | nil => cases bs <;> simp [pure, Except.pure]
  | cons a as ih =>
    rw [List.mapM_cons]
    cases first : f a with
    | error err => cases bs <;> simp [first, bind, Except.bind]
    | ok b =>
      cases rest : as.mapM f with
      | error err => cases bs <;> simp [first, rest, ← ih, bind, Except.bind]
      | ok bs' => cases bs <;> simp [first, rest, ← ih, bind, Except.bind, pure, Except.pure]

/-- A sequence of steps fails for the first of them that fails. -/
theorem mapM_eq_error_iff {err : ε} : as.mapM f = .error err ↔
    ∃ pre a post, as = pre ++ a :: post ∧ (∀ x ∈ pre, ∃ y, f x = .ok y) ∧ f a = .error err := by
  induction as with
  | nil => simp [pure, Except.pure]
  | cons a as ih =>
    rw [List.mapM_cons]
    constructor
    · intro failed
      cases first : f a with
      | error err' =>
        simp only [first, bind, Except.bind, Except.error.injEq] at failed
        exact ⟨[], a, as, rfl, by simp, by rw [first, failed]⟩
      | ok b =>
        cases rest : as.mapM f with
        | ok bs => simp [first, rest, bind, Except.bind, pure, Except.pure] at failed
        | error err' =>
          simp only [first, rest, bind, Except.bind, Except.error.injEq] at failed
          subst failed
          obtain ⟨pre, x, post, rfl, before, here⟩ := ih.1 rest
          exact ⟨a :: pre, x, post, rfl, List.forall_mem_cons.2 ⟨⟨b, first⟩, before⟩, here⟩
    · rintro ⟨pre, x, post, split, before, here⟩
      cases pre with
      | nil =>
        obtain ⟨rfl, rfl⟩ := List.cons.inj split
        simp [here, bind, Except.bind]
      | cons y pre =>
        rw [List.cons_append] at split
        obtain ⟨rfl, rfl⟩ := List.cons.inj split
        rw [List.forall_mem_cons] at before
        obtain ⟨⟨b, first⟩, before⟩ := before
        have rest := ih.2 ⟨pre, x, post, rfl, before, here⟩
        simp [first, rest, bind, Except.bind]

/-- A sequence of steps succeeds if each of them does. -/
theorem exists_mapM_iff : (∃ bs, as.mapM f = .ok bs) ↔ ∀ a ∈ as, ∃ b, f a = .ok b := by
  simp only [mapM_eq_ok_iff]
  induction as with
  | nil => simp
  | cons a as ih =>
    rw [List.forall_mem_cons, ← ih]
    constructor
    · rintro ⟨_, _ | ⟨first, rest⟩⟩
      exact ⟨⟨_, first⟩, _, rest⟩
    · rintro ⟨⟨b, first⟩, bs, rest⟩
      exact ⟨b :: bs, .cons first rest⟩

end Sequence

/-- Grouping keeps the blocks of each role, in their order, and loses none. -/
theorem RoleLists.get_ofList (bs : List (Role × Block)) (r : Role) :
    (ofList bs).get r = (bs.filter (·.1 = r)).map (·.2) := by
  have grouped : ∀ l : RoleLists,
      (bs.foldl (fun l p => l.put p.1 (l.get p.1 ++ [p.2])) l).get r =
        l.get r ++ (bs.filter (·.1 = r)).map (·.2) := by
    induction bs with
    | nil => simp
    | cons p bs ih =>
      intro l
      rw [List.foldl_cons, ih, get_put]
      by_cases same : p.1 = r
      · subst same
        simp
      · simp [same, Ne.symm same]
  have empty : get {} r = [] := by cases r <;> rfl
  rw [ofList, grouped, empty, List.nil_append]

namespace ParsedBlock
variable {p : ParsedBlock} {buffer : Buffer} {source : Source} {b : Block} {err : Error}

/-- Where a reported block is in the current text: at its explicit span, else where its descriptor
says, else it is all of the text. -/
def place (p : ParsedBlock) (text : Text) : Span :=
  (p.span <|> p.descriptor.placement.map Placement.span).getD ⟨0, Text.byteSize text⟩

/-- A block is the one that was reported: it has the descriptor of the report, and its snippet is
made from the current text at its place, which was copied from the base at the span of the block. -/
structure Gives (p : ParsedBlock) (buffer : Buffer) (b : Block) : Prop where
  fits : (p.place buffer.render).Fits buffer.render
  origin : buffer.baseSpan? (p.place buffer.render) = some b.span
  descriptor : b.descriptor = p.descriptor
  snippet : b.snippet = .ofText
    (Text.slice buffer.render (p.place buffer.render).start (p.place buffer.render).stop)
  handler : b.handler = {}
  replacements : b.replacements = []

/-- Why no block can be made at the place of a report. -/
inductive Misplaced (p : ParsedBlock) (buffer : Buffer) : Error → Prop where
  /-- The place does not lie between two characters of the current text, in order. -/
  | outside (misfit : ¬(p.place buffer.render).Fits buffer.render) :
    Misplaced p buffer (.invalidOffsets (p.place buffer.render).start
      (p.place buffer.render).stop (Text.byteSize buffer.render))
  /-- The text there is not copied from one place of the base. -/
  | edited (fits : (p.place buffer.render).Fits buffer.render)
      (unmapped : buffer.baseSpan? (p.place buffer.render) = none) :
    Misplaced p buffer
      (.editedRange (p.place buffer.render).start (p.place buffer.render).stop)

theorem resolve_eq (p : ParsedBlock) (text : Text) :
    Block.resolve text p.descriptor p.span = p.place text := by
  cases span : p.span with
  | some s => simp [Block.resolve, place, span]
  | none =>
    cases placement : p.descriptor.placement with
    | some l => simp [Block.resolve, place, span, placement]
    | none => simp [Block.resolve, place, span, placement, Location.ofWhole, Location.span,
        Position.after]

theorem create_eq_ok_iff (readable : source.access ≠ .writing) :
    Block.create source p.descriptor p.span = .ok b ↔ p.Gives source.buffer b := by
  have cases := Block.create_cases readable p.descriptor p.span
  simp only [resolve_eq] at cases
  rcases cases with ⟨misfit, eq⟩ | ⟨-, unmapped, eq⟩ | ⟨origin, fits, found, eq⟩
  · rw [eq]
    exact ⟨nofun, fun gives => absurd gives.fits misfit⟩
  · rw [eq]
    exact ⟨nofun, fun gives => by simp [gives.origin] at unmapped⟩
  · rw [eq, Except.ok.injEq]
    constructor
    · rintro rfl
      exact ⟨fits, found, rfl, rfl, rfl, rfl⟩
    · rintro ⟨-, same, descriptor, snippet, handler, replacements⟩
      obtain ⟨_, span, _, _, _⟩ := b
      obtain rfl : origin = span := Option.some.inj (found.symm.trans same)
      simp only at descriptor snippet handler replacements
      rw [descriptor, snippet, handler, replacements]

theorem create_eq_error_iff (readable : source.access ≠ .writing) :
    Block.create source p.descriptor p.span = .error err ↔ p.Misplaced source.buffer err := by
  have cases := Block.create_cases readable p.descriptor p.span
  simp only [resolve_eq] at cases
  rcases cases with ⟨misfit, eq⟩ | ⟨fits, unmapped, eq⟩ | ⟨origin, fits, found, eq⟩
  · rw [eq, Except.error.injEq]
    constructor
    · rintro rfl
      exact .outside misfit
    · rintro (_ | ⟨fits, -⟩)
      · rfl
      · exact absurd fits misfit
  · rw [eq, Except.error.injEq]
    constructor
    · rintro rfl
      exact .edited fits unmapped
    · rintro (misfit | _)
      · exact absurd fits misfit
      · rfl
  · rw [eq]
    refine ⟨nofun, ?_⟩
    rintro (misfit | ⟨-, unmapped⟩)
    · exact absurd fits misfit
    · simp [found] at unmapped

/-- In a text without edits, a block can be made at every place that fits the text. -/
theorem gives_unedited_iff {t : Text} {f : Option String}
    (unedited : source.read = .ok { Buffer.ofText t with filename := f }) :
    p.Gives source.buffer b ↔ (p.place t).Fits t ∧
      b = { descriptor := p.descriptor, span := p.place t,
            snippet := .ofText (Text.slice t (p.place t).start (p.place t).stop) } := by
  rw [← create_eq_ok_iff (Source.read_eq_ok_iff.1 unedited).1, Block.create_unedited_iff unedited,
    resolve_eq]

end ParsedBlock

namespace Document
variable {d : Document} {err : Error} {found : List ParsedBlock} {bs : List (Role × Block)}

/-- The parser of a document is run over the current text, and this is what comes out. -/
def Reports (d : Document) (report : Except Error (Option (List ParsedBlock))) : Prop :=
  d.source.access ≠ .writing ∧
    ∃ parser, d.parser = some parser ∧ parser d.source.buffer.render = report

/-- What a document cannot be parsed for. -/
inductive Refuses (d : Document) : Error → Prop where
  /-- There is no parser, and one is needed. -/
  | missing (missing : d.parser = none) (needed : d.config.silent = false) :
    Refuses d .missingParser
  /-- The buffer is being written, so that there is no current text. -/
  | borrowed (present : d.parser.isSome = true) (writing : d.source.access = .writing) :
    Refuses d .sourceBorrowed
  /-- The parser fails. -/
  | failed {err : Error} (reports : d.Reports (.error err)) : Refuses d err
  /-- Of the reported blocks, the first that cannot be made. -/
  | misplaced {pre post : List ParsedBlock} {p : ParsedBlock} {err : Error}
      (reports : d.Reports (.ok (some (pre ++ p :: post))))
      (before : ∀ q ∈ pre, ∃ b, q.Gives d.source.buffer b)
      (here : p.Misplaced d.source.buffer err) : Refuses d err

theorem resolveBlock_eq_ok_iff {source : Source} {p : ParsedBlock} {x : Role × Block}
    (readable : source.access ≠ .writing) :
    resolveBlock source p = .ok x ↔ x.1 = p.role ∧ p.Gives source.buffer x.2 := by
  rw [← ParsedBlock.create_eq_ok_iff readable]
  cases made : Block.create source p.descriptor p.span with
  | error err => simp [resolveBlock, made, bind, Except.bind]
  | ok b =>
    simp [resolveBlock, made, bind, Except.bind, pure, Except.pure, Prod.ext_iff, eq_comm]

theorem resolveBlock_eq_error_iff {source : Source} {p : ParsedBlock}
    (readable : source.access ≠ .writing) :
    resolveBlock source p = .error err ↔ p.Misplaced source.buffer err := by
  rw [← ParsedBlock.create_eq_error_iff readable]
  cases made : Block.create source p.descriptor p.span <;>
    simp [resolveBlock, made, bind, Except.bind, pure, Except.pure]

theorem exists_resolveBlock_iff {source : Source} {p : ParsedBlock}
    (readable : source.access ≠ .writing) :
    (∃ x, resolveBlock source p = .ok x) ↔ ∃ b, p.Gives source.buffer b := by
  simp only [resolveBlock_eq_ok_iff readable]
  constructor
  · rintro ⟨x, -, gives⟩
    exact ⟨x.2, gives⟩
  · rintro ⟨b, gives⟩
    exact ⟨(p.role, b), rfl, gives⟩

/-- All reported blocks can be made, and then each is the one that was reported. -/
theorem resolveAll_eq_ok_iff (readable : d.source.access ≠ .writing) :
    found.mapM (resolveBlock d.source) = .ok bs ↔
      List.Forall₂ (fun p x => x.1 = p.role ∧ p.Gives d.source.buffer x.2) found bs := by
  simp only [mapM_eq_ok_iff, resolveBlock_eq_ok_iff readable]

/-- The blocks of a role are those that were reported for it. -/
theorem gives_of_role (made : List.Forall₂
      (fun p x => x.1 = p.role ∧ p.Gives d.source.buffer x.2) found bs) (r : Role) :
    List.Forall₂ (fun p b => p.Gives d.source.buffer b) (found.filter (·.role = r))
      ((RoleLists.ofList bs).get r) := by
  rw [RoleLists.get_ofList, List.forall₂_map_right_iff]
  have kept := List.rel_filter (p := (·.role = r)) (q := (·.1 = r))
    (fun p x same => by simp [same.1]) made
  exact kept.imp fun p x same => same.2

/-- Every block of a role was reported for it. -/
theorem exists_gives_of_mem (made : List.Forall₂
      (fun p x => x.1 = p.role ∧ p.Gives d.source.buffer x.2) found bs) {r : Role} {b : Block}
    (hb : b ∈ (RoleLists.ofList bs).get r) :
    ∃ p ∈ found, p.role = r ∧ p.Gives d.source.buffer b := by
  obtain ⟨i, hi, rfl⟩ := List.getElem_of_mem hb
  have given := gives_of_role made r
  have hp : i < (found.filter (·.role = r)).length := given.length_eq ▸ hi
  obtain ⟨mem, role⟩ := List.mem_filter.1 (List.getElem_mem hp)
  exact ⟨_, mem, by simpa using role, given.get hp hi⟩

/-- What is made of a report. -/
theorem parsed_of_reports {report : Except Error (Option (List ParsedBlock))} :
    d.Reports report → d.parsed = report.bind fun reported =>
      reported.elim (.ok none) fun found => (found.mapM (resolveBlock d.source)).map some := by
  rintro ⟨readable, parser, attached, rfl⟩
  have text : d.text = .ok d.source.buffer.render := by
    simp [Document.text, Source.text, Source.read, readable, Except.map]
  simp only [parsed, attached, text, bind, Except.bind]
  cases parser d.source.buffer.render with
  | error err => rfl
  | ok report =>
    cases report with
    | none => rfl
    | some found =>
      simp only [Option.elim]
      cases found.mapM (resolveBlock d.source) <;> rfl

theorem parse_of_failed (reports : d.Reports (.error err)) : d.parse = .refused d err := by
  rw [parse, parsed_of_reports reports]
  rfl

theorem parse_of_nothing (reports : d.Reports (.ok none)) : d.parse = .done d := by
  rw [parse, parsed_of_reports reports]
  rfl

theorem parse_of_unmade (reports : d.Reports (.ok (some found)))
    (unmade : found.mapM (resolveBlock d.source) = .error err) : d.parse = .refused d err := by
  have parsed : d.parsed = .error err := by
    rw [parsed_of_reports reports]
    show (found.mapM (resolveBlock d.source)).map some = _
    rw [unmade]
    rfl
  rw [parse, parsed]

theorem parse_of_made (reports : d.Reports (.ok (some found)))
    (made : found.mapM (resolveBlock d.source) = .ok bs) :
    d.parse = .done { d with blocks := .ofList bs } := by
  have parsed : d.parsed = .ok (some bs) := by
    rw [parsed_of_reports reports]
    show (found.mapM (resolveBlock d.source)).map some = _
    rw [made]
    rfl
  rw [parse, parsed]

/-- A document that cannot be parsed stays as it is. -/
theorem parse_of_refuses (refuses : d.Refuses err) : d.parse = .refused d err := by
  cases refuses with
  | missing missing needed => simp [parse, parsed, missing, needed]
  | borrowed present writing =>
    obtain ⟨parser, attached⟩ := Option.isSome_iff_exists.1 present
    simp [parse, parsed, attached, Document.text, Source.text, Source.read, writing, Except.map,
      bind, Except.bind]
  | failed reports => exact parse_of_failed reports
  | @misplaced pre post p err reports before here =>
    refine parse_of_unmade reports (mapM_eq_error_iff.2 ⟨pre, p, post, rfl, ?_, ?_⟩)
    · exact fun q hq => (exists_resolveBlock_iff reports.1).2 (before q hq)
    · exact (resolveBlock_eq_error_iff reports.1).2 here

/-- A document cannot be parsed, has nothing to take, or takes all that is reported. -/
theorem parse_cases (d : Document) :
    (∃ err, d.Refuses err ∧ d.parse = .refused d err) ∨
      ((d.parser = none ∧ d.config.silent = true ∨ d.Reports (.ok none)) ∧ d.parse = .done d) ∨
      ∃ found bs, d.Reports (.ok (some found)) ∧
        List.Forall₂ (fun p x => x.1 = p.role ∧ p.Gives d.source.buffer x.2) found bs ∧
        d.parse = .done { d with blocks := .ofList bs } := by
  have refused : ∀ {err}, d.Refuses err → ∃ err, d.Refuses err ∧ d.parse = .refused d err :=
    fun refuses => ⟨_, refuses, parse_of_refuses refuses⟩
  obtain missing | ⟨parser, attached⟩ := d.parser.eq_none_or_eq_some
  · cases silent : d.config.silent with
    | false => exact .inl (refused (.missing missing silent))
    | true => exact .inr (.inl ⟨.inl ⟨missing, rfl⟩, by simp [parse, parsed, missing, silent]⟩)
  · by_cases writing : d.source.access = .writing
    · exact .inl (refused (.borrowed (by simp [attached]) writing))
    · have reports : d.Reports (parser d.source.buffer.render) := ⟨writing, parser, attached, rfl⟩
      generalize parser d.source.buffer.render = report at reports
      match report, reports with
      | .error err, reports => exact .inl (refused (.failed reports))
      | .ok none, reports => exact .inr (.inl ⟨.inr reports, parse_of_nothing reports⟩)
      | .ok (some found), reports =>
        cases made : found.mapM (resolveBlock d.source) with
        | error err =>
          obtain ⟨pre, p, post, rfl, before, here⟩ := mapM_eq_error_iff.1 made
          refine .inl ⟨err, .misplaced reports (fun q hq => ?_) ?_, parse_of_unmade reports made⟩
          · exact (exists_resolveBlock_iff writing).1 (before q hq)
          · exact (resolveBlock_eq_error_iff writing).1 here
        | ok bs =>
          exact .inr (.inr ⟨found, bs, reports, (resolveAll_eq_ok_iff writing).1 made,
            parse_of_made reports made⟩)

/-- A report is taken if all its blocks can be made. -/
theorem accepted_parse_iff (reports : d.Reports (.ok (some found))) :
    d.parse.accepted = true ↔ ∀ p ∈ found, ∃ b, p.Gives d.source.buffer b := by
  simp only [← exists_resolveBlock_iff reports.1, ← exists_mapM_iff]
  cases made : found.mapM (resolveBlock d.source) with
  | error err => simp [parse_of_unmade reports made]
  | ok bs => simp [parse_of_made reports made]

/-- What a document looks like after it has taken a report. -/
theorem parse_of_accepted (reports : d.Reports (.ok (some found)))
    (accepted : d.parse.accepted = true) : ∃ bs,
      List.Forall₂ (fun p x => x.1 = p.role ∧ p.Gives d.source.buffer x.2) found bs ∧
        d.parse = .done { d with blocks := .ofList bs } := by
  cases made : found.mapM (resolveBlock d.source) with
  | error err => simp [parse_of_unmade reports made] at accepted
  | ok bs => exact ⟨bs, (resolveAll_eq_ok_iff reports.1).1 made, parse_of_made reports made⟩

theorem Reports.unique {r r' : Except Error (Option (List ParsedBlock))} (h : d.Reports r)
    (h' : d.Reports r') : r = r' := by
  obtain ⟨-, parser, attached, rfl⟩ := h
  obtain ⟨-, parser', attached', rfl⟩ := h'
  obtain rfl : parser = parser' := Option.some.inj (attached.symm.trans attached')
  rfl

/-- Parsing does not change the buffer. -/
theorem source_parse (d : Document) : d.parse.left.source = d.source := by
  rcases parse_cases d with ⟨_, -, outcome⟩ | ⟨-, outcome⟩ | ⟨_, _, -, -, outcome⟩ <;>
    rw [outcome] <;> rfl

/-- What a document is refused for. -/
theorem refusal_parse_iff : d.parse.refusal? = some err ↔ d.Refuses err := by
  refine ⟨fun refused => ?_, fun refuses => by rw [parse_of_refuses refuses]; rfl⟩
  rcases parse_cases d with ⟨err', refuses, outcome⟩ | ⟨-, outcome⟩ | ⟨_, _, -, -, outcome⟩
  · obtain rfl : err' = err := by simpa [outcome, Attempt.refused] using refused
    exact refuses
  · simp [outcome, Attempt.done] at refused
  · simp [outcome, Attempt.done] at refused

end Document

/-- **Parsing a document is all or nothing.** It never changes the buffer. It is refused exactly
for a missing parser, a buffer that is being written, a failure of the parser, or the first reported
block that cannot be made, and then the document stays as it was; so it does when the parser
reports nothing, or there is none and none is needed. Otherwise it takes exactly the reported
blocks: those of each role in the order of the report, and each with the descriptor that was
reported and with the current text at its place. -/
theorem parse_all_or_nothing (d : Document) :
    d.parse.left.source = d.source ∧
      (∀ err, d.parse.refusal? = some err ↔ d.Refuses err) ∧
      (d.parse.accepted = false ∨ d.parser = none ∨ d.Reports (.ok none) → d.parse.left = d) ∧
      ∀ found, d.Reports (.ok (some found)) → d.parse.accepted = true →
        d.parse.left = { d with blocks := d.parse.left.blocks } ∧
          ∀ r, List.Forall₂ (fun p b => p.Gives d.source.buffer b) (found.filter (·.role = r))
            (d.parse.left.blocks.get r) := by
  refine ⟨d.source_parse, fun err => Document.refusal_parse_iff, ?_, ?_⟩
  · intro idle
    rcases Document.parse_cases d with ⟨_, -, outcome⟩ | ⟨-, outcome⟩ |
      ⟨found, _, reports, -, outcome⟩
    · rw [outcome]
      rfl
    · rw [outcome]
      rfl
    · rcases idle with refused | missing | none
      · simp [outcome] at refused
      · obtain ⟨-, parser, attached, -⟩ := reports
        simp [missing] at attached
      · cases reports.unique none
  · intro found reports accepted
    obtain ⟨bs, made, outcome⟩ := Document.parse_of_accepted reports accepted
    rw [outcome]
    exact ⟨rfl, Document.gives_of_role made⟩

/-- Around a word that was replaced, three blocks can be made. With one more over all of the text
the document takes none, and keeps the block that it had. -/
theorem words_taken_together :
    let buffer := (Buffer.ofText "one two six".toList).run [.overwrite 4 7 "2222".toList {}]
    let found : List ParsedBlock := [{ role := .script, span := some ⟨0, 3⟩ },
      { role := .style, descriptor := { placement := some (.offsets ⟨9, 12⟩) } },
      { role := .script, span := some ⟨9, 10⟩ }]
    let whole : ParsedBlock := { role := .custom }
    let d (reported : List ParsedBlock) : Document :=
      { initial := buffer.render, config := {}, source := { buffer }
        parser := some fun _ => .ok (some reported)
        blocks := { styles := [{ descriptor := {}, span := ⟨0, 3⟩, snippet := .ofText [] }] } }
    (d found).Reports (.ok (some found)) ∧ (d found).parse.accepted = true ∧
      (∀ r, List.Forall₂ (fun p b => p.Gives buffer b) (found.filter (·.role = r))
        ((d found).parse.left.blocks.get r)) ∧
      ((d found).parse.left.blocks.get .script).map Block.render = ["one".toList, "s".toList] ∧
      (d (found ++ [whole])).parse.refusal? = some (.editedRange 0 12) ∧
      (d (found ++ [whole])).parse.left = d (found ++ [whole]) := by
  intro buffer found whole d
  have reports : (d found).Reports (.ok (some found)) := ⟨by decide, _, rfl, rfl⟩
  have accepted : (d found).parse.accepted = true := by decide
  have refused : (d (found ++ [whole])).parse.refusal? = some (.editedRange 0 12) := by decide
  exact ⟨reports, accepted, ((parse_all_or_nothing (d found)).2.2.2 found reports accepted).2,
    by decide, refused, (parse_all_or_nothing (d (found ++ [whole]))).2.2.1
      (.inl (by rw [Attempt.accepted, refused]; rfl))⟩

end ComponentEdit
