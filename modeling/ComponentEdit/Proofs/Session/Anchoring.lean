import ComponentEdit.Proofs.Block.Anchoring
import ComponentEdit.Proofs.Document.Parsing
import ComponentEdit.Session.Basic

/-!
# Blocks keep their place

Whatever is done in a session, each of its blocks stands for a part of the text that the buffer was
made from, and its snippet was made from that part (`Session.Moored`). Every action keeps this
(`Moored.perform`), and a block that is made over an edited text starts with it. So an edit that a
snippet takes has offsets of the text when it reaches the buffer, which can then refuse it only
inside a replacement (`blocks_keep_place`).
-/

namespace ComponentEdit
set_option autoImplicit false

namespace Session

/-- What can be done in a session. -/
inductive Action where
  /-- Make a block over the current text. -/
  | create (d : Descriptor) (span : Option Span) (handler : Handler)
  /-- Edit the buffer. -/
  | editSource (e : Edit)
  /-- Edit a block. -/
  | edit (ref : BlockRef) (e : Edit)
  /-- Write a property of a block. -/
  | set (ref : BlockRef) (key : String) (v : Json)
  /-- Change the descriptor of a block. -/
  | describe (ref : BlockRef) (d : Descriptor)
  /-- Replace an operation of a block. -/
  | replace (ref : BlockRef) (op : Operation) (r : Replacement)
  /-- Take an operation of a block back from its replacement. -/
  | restore (ref : BlockRef) (op : Operation)
  /-- Run the document's parser. -/
  | parse (p : Parser)
  /-- Move the blocks of a role to those made one by one. -/
  | take (role : Role)
  /-- Put the buffer in use. -/
  | acquire (access : Access)
  /-- Put the buffer in another use, or in none. -/
  | release (access : Access)
  /-- Give up the owner of the buffer. -/
  | drop

/-- Change a block, if it is there. -/
def atBlock (s : Session) (ref : BlockRef) (change : Block → Session) : Session :=
  match s.block? ref with
  | some b => change b
  | none => s

/-- The session after an action, done or refused. -/
def perform (s : Session) : Action → Session
  | .create d span handler =>
    match s.create d span handler with
    | .ok next => next
    | .error _ => s
  | .editSource e =>
    match s.source? with
    | some source => s.withSource (source.edit e).left
    | none => s
  | .edit ref e => s.atBlock ref fun b => (s.edit ref b e).left
  | .set ref key v => s.atBlock ref fun b => s.putBlock ref (b.set key v).left
  | .describe ref d => s.atBlock ref fun b => s.putBlock ref { b with descriptor := d }
  | .replace ref op r => s.atBlock ref fun b => s.putBlock ref (b.replace op r)
  | .restore ref op => s.atBlock ref fun b => s.putBlock ref (b.restore op)
  | .parse p =>
    match s.document? with
    | some d => (s.parse d p).left
    | none => s
  | .take role =>
    match s.document? with
    | some d => s.take d role
    | none => s
  | .acquire access =>
    match s.acquire access with
    | .ok next => next
    | .error _ => s
  | .release access => s.release access
  | .drop => s.drop

/-- The session after a sequence of actions. -/
def performAll (s : Session) (actions : List Action) : Session := actions.foldl perform s

/-- The blocks of a session have places in a text, which the buffer was made from. -/
structure Moored (t : Text) (s : Session) : Prop where
  source : ∀ source, s.source? = some source → source.Over t
  single : ∀ b ∈ s.blocks, b.Moored t
  ofRole : ∀ d, s.document? = some d → ∀ role, ∀ b ∈ d.blocks.get role, b.Moored t

end Session

/-- The blocks of a document have places if they are made anew from what a parser reports, or are
kept. -/
theorem Document.moored_of_parse {t : Text} {d : Document} (h : d.source.Over t)
    (kept : ∀ role, ∀ b ∈ d.blocks.get role, b.Moored t) (role : Role) :
    ∀ b ∈ d.parse.left.blocks.get role, b.Moored t := by
  rcases parse_cases d with ⟨_, -, outcome⟩ | ⟨-, outcome⟩ | ⟨found, bs, reports, made, outcome⟩
  · rw [outcome]
    exact kept role
  · rw [outcome]
    exact kept role
  · rw [outcome, Attempt.left_done]
    intro b hb
    obtain ⟨p, -, -, gives⟩ := exists_gives_of_mem made hb
    rw [← h.base]
    exact Block.moored_of_create h.tiled ((ParsedBlock.create_eq_ok_iff reports.1).2 gives)

/-- A session whose buffer could be put in a use is the same session with its buffer in that use. -/
theorem Session.acquire_inversion {s next : Session} {access : Access}
    (acquired : s.acquire access = .ok next) :
    ∃ source, s.source? = some source ∧ next = s.withSource { source with access } := by
  cases held : s.source? with
  | none => simp [acquire, held, Source.held, bind, Except.bind] at acquired
  | some source =>
    simp only [acquire, held, Source.held, bind, Except.bind, pure, Except.pure] at acquired
    split at acquired
    -- whether it is written or read, there is an error or the same session comes out
    all_goals
      split at acquired
      · cases acquired
      · exact ⟨source, rfl, (Except.ok.inj acquired).symm⟩

namespace Session.Moored
variable {t : Text} {s : Session} {source : Source} {ref : BlockRef} {b : Block}

theorem block (h : s.Moored t) (hb : s.block? ref = some b) : b.Moored t := by
  cases ref with
  | single i => exact h.single b (List.mem_of_getElem? hb)
  | ofRole r i =>
    obtain ⟨d, hd, hb⟩ := Option.bind_eq_some_iff.1 hb
    exact h.ofRole d hd r b (List.mem_of_getElem? hb)

/-- Another state of the buffer keeps the blocks in their places. -/
theorem withSource (h : s.Moored t) (lies : source.Over t) : (s.withSource source).Moored t := by
  obtain ⟨owner, blocks, log⟩ := s
  cases owner with
  | source own => exact ⟨by rintro _ ⟨⟩; exact lies, h.single, h.ofRole⟩
  | document d =>
    refine ⟨by rintro _ ⟨⟩; exact lies, h.single, ?_⟩
    rintro _ ⟨⟩
    exact h.ofRole d rfl
  | gone => exact h

/-- Another state of the document keeps the blocks made one by one. -/
theorem withDocument (h : s.Moored t) {d : Document} (lies : d.source.Over t)
    (roles : ∀ role, ∀ b ∈ d.blocks.get role, b.Moored t) : (s.withDocument d).Moored t := by
  refine ⟨?_, h.single, ?_⟩
  · rintro _ ⟨⟩
    exact lies
  · rintro _ ⟨⟩
    exact roles

theorem document (h : s.Moored t) {d : Document} (hd : s.document? = some d) :
    d.source.Over t := by
  obtain ⟨owner, blocks, log⟩ := s
  cases owner <;> simp [document?, Owner.document?] at hd
  subst hd
  exact h.source _ rfl

/-- Another state of a block keeps the others in their places. -/
theorem putBlock (h : s.Moored t) (ref : BlockRef) (hb : b.Moored t) :
    (s.putBlock ref b).Moored t := by
  cases ref with
  | single i =>
    refine ⟨h.source, fun c hc => ?_, h.ofRole⟩
    rcases List.mem_or_eq_of_mem_set hc with hc | rfl
    · exact h.single c hc
    · exact hb
  | ofRole r i =>
    simp only [Session.putBlock]
    cases hd : s.document? with
    | none => exact h
    | some d =>
      have lies := h.document hd
      refine h.withDocument lies fun role c hc => ?_
      rw [RoleLists.get_put] at hc
      split at hc
      · rcases List.mem_or_eq_of_mem_set hc with hc | rfl
        · exact h.ofRole d hd r c hc
        · exact hb
      · exact h.ofRole d hd role c hc

theorem atBlock (h : s.Moored t) {change : Block → Session}
    (kept : ∀ b : Block, b.Moored t → (change b).Moored t) : (s.atBlock ref change).Moored t := by
  unfold Session.atBlock
  cases hb : s.block? ref with
  | none => exact h
  | some b => exact kept b (h.block hb)

/-- A block that is made has a place. -/
theorem create (h : s.Moored t) {d : Descriptor} {span : Option Span} {handler : Handler}
    {next : Session} (created : s.create d span handler = .ok next) : next.Moored t := by
  cases held : s.source? with
  | none => simp [Session.create, held, Source.held, bind, Except.bind] at created
  | some source =>
    cases made : Block.create source d span with
    | error err => simp [Session.create, held, Source.held, made, bind, Except.bind] at created
    | ok b =>
      simp only [Session.create, held, Source.held, made, bind, Except.bind, pure, Except.pure,
        Except.ok.injEq] at created
      have lies := h.source source held
      have moored : b.Moored t := by
        rw [← lies.base]
        exact Block.moored_of_create lies.tiled made
      rw [← created]
      refine ⟨h.source, fun c hc => ?_, h.ofRole⟩
      rcases List.mem_append.1 hc with old | new
      · exact h.single c old
      · rw [List.mem_singleton.1 new]
        exact moored.congr rfl rfl

/-- An edit of a block keeps all blocks in their places. -/
theorem edit (h : s.Moored t) (ref : BlockRef) (hb : b.Moored t) (e : Edit) :
    (s.edit ref b e).left.Moored t := by
  have logged : Session.Moored t
      (if b.isReplaced e.operation then { s with log := s.log ++ [e] } else s) := by
    split
    · exact ⟨h.source, h.single, h.ofRole⟩
    · exact h
  refine putBlock ?_ ref (hb.apply s.source? e)
  cases held : (b.apply s.source? e).left.source with
  | none => exact logged
  | some source => exact logged.withSource (Source.Over.apply_block h.source b e held)

/-- The blocks that are made anew from what the parser reports have places. -/
theorem parse (h : s.Moored t) {d : Document} (hd : s.document? = some d) (p : Parser) :
    (s.parse d p).left.Moored t := by
  have lies := h.document hd
  let attached : Document := { d with parser := d.parser.map fun _ => p }
  have same : attached.parse.left.source = d.source := attached.source_parse
  refine h.withDocument (d := { attached.parse.left with parser := d.parser }) ?_
    (Document.moored_of_parse (d := attached) lies (h.ofRole d hd))
  show attached.parse.left.source.Over t
  rw [same]
  exact lies

/-- Blocks that are moved keep their places. -/
theorem take (h : s.Moored t) {d : Document} (hd : s.document? = some d) (role : Role) :
    (s.take d role).Moored t := by
  have emptied : (s.withDocument { d with blocks := d.blocks.put role [] }).Moored t := by
    have lies := h.document hd
    refine h.withDocument lies fun r b hb => ?_
    rw [RoleLists.get_put] at hb
    split at hb
    · simp at hb
    · exact h.ofRole d hd r b hb
  refine ⟨emptied.source, fun b hb => ?_, emptied.ofRole⟩
  rcases List.mem_append.1 hb with old | moved
  · exact h.single b old
  · exact h.ofRole d hd role b moved

/-- Using the buffer keeps what it is. -/
theorem access (h : s.Moored t) (held : s.source? = some source) (access : Access) :
    (s.withSource { source with access }).Moored t :=
  h.withSource ⟨(h.source source held).tiled, (h.source source held).base⟩

theorem acquire (h : s.Moored t) {access : Access} {next : Session}
    (acquired : s.acquire access = .ok next) : next.Moored t := by
  obtain ⟨source, held, rfl⟩ := acquire_inversion acquired
  exact h.access held access

/-- Every action keeps the blocks in their places. -/
theorem perform (h : s.Moored t) (a : Action) : (s.perform a).Moored t := by
  cases a with
  | create d span handler =>
    simp only [Session.perform]
    cases made : s.create d span handler with
    | error err => exact h
    | ok next => exact h.create made
  | editSource e =>
    simp only [Session.perform]
    cases held : s.source? with
    | none => exact h
    | some source => exact h.withSource ((h.source source held).edit e)
  | edit ref e => exact h.atBlock fun b hb => h.edit ref hb e
  | set ref key v =>
    refine h.atBlock fun b hb => h.putBlock ref ?_
    unfold Block.set
    split <;> exact hb.congr rfl rfl
  | describe ref d => exact h.atBlock fun b hb => h.putBlock ref (hb.congr rfl rfl)
  | replace ref op r => exact h.atBlock fun b hb => h.putBlock ref (hb.congr rfl rfl)
  | restore ref op => exact h.atBlock fun b hb => h.putBlock ref (hb.congr rfl rfl)
  | parse p =>
    simp only [Session.perform]
    cases hd : s.document? with
    | none => exact h
    | some d => exact h.parse hd p
  | take role =>
    simp only [Session.perform]
    cases hd : s.document? with
    | none => exact h
    | some d => exact h.take hd role
  | acquire access =>
    simp only [Session.perform]
    cases acquired : s.acquire access with
    | error err => exact h
    | ok next => exact h.acquire acquired
  | release access =>
    simp only [Session.perform, Session.release]
    cases held : s.source? with
    | none => exact h
    | some source => exact h.access held access
  | drop => exact ⟨by rintro _ ⟨⟩, h.single, by rintro _ ⟨⟩⟩

theorem performAll (h : s.Moored t) (actions : List Action) : (s.performAll actions).Moored t := by
  induction actions generalizing s with
  | nil => exact h
  | cons a actions ih => exact ih (h.perform a)

/-- A session without blocks has none out of place. -/
theorem of_fresh (held : s.source? = some source) (lies : source.Over t)
    (fresh : ∀ ref, s.block? ref = none) : s.Moored t where
  source := by
    intro source' held'
    rw [held, Option.some.injEq] at held'
    rw [← held']
    exact lies
  single b hb := by
    obtain ⟨i, hi⟩ := List.getElem?_of_mem hb
    exact absurd hi (by simpa [block?] using congrArg (· ≠ some b) (fresh (.single i)))
  ofRole d hd role b hb := by
    obtain ⟨i, hi⟩ := List.getElem?_of_mem hb
    have none := fresh (.ofRole role i)
    simp [block?, hd, hi] at none

end Session.Moored

/-- Whatever is done in a session, a block stands for a part of the text that the buffer was made
from, and its snippet was made from that part. An edit that the snippet takes has no offset behind
the end of the text when it is addressed to the buffer, and a free buffer can refuse it only inside
a replacement. -/
theorem blocks_keep_place (t : Text) (filename : Option String) (upstream : List Edit)
    (s : Session) (source : Source) (held : s.source? = some source)
    (buffer : source.buffer = { (Buffer.ofText t).run upstream with filename })
    (fresh : ∀ ref, s.block? ref = none) (actions : List Session.Action) :
    let after := s.performAll actions
    (∀ source', after.source? = some source' → source'.buffer.base = t) ∧
      ∀ ref b, after.block? ref = some b →
        b.span.Fits t ∧ b.snippet.base = Text.slice t b.span.start b.span.stop ∧
          ∀ e : Edit, (e.apply b.snippet).accepted = true →
            (e.within b.span).Fits (Text.byteSize t) ∧
              ∀ source', after.source? = some source' → source'.access = .free →
                ∀ err, (source'.edit (e.within b.span)).refusal? = some err →
                  ∃ line column replaced, err = .splitEditedChunk line column replaced := by
  intro after
  have moored := (Session.Moored.of_fresh held (.reached buffer) fresh).performAll actions
  refine ⟨fun source' held' => (moored.source source' held').base, fun ref b hb => ?_⟩
  have block := moored.block hb
  refine ⟨block.fits, block.text, fun e ok => ⟨(block.addresses ok).fits, ?_⟩⟩
  intro source' held' free err refused
  have lies' := moored.source source' held'
  have addresses := block.addresses ok
  rw [← lies'.base] at addresses
  refine addresses.refusal lies'.tiled ?_
  simpa [Source.edit, Source.write, free, Attempt.map] using refused

/-- A block over a word behind an insertion, a part of which is then replaced in the buffer: the
snippet takes an insertion into that part, and the buffer refuses it as one inside a replacement. -/
theorem block_behind_insertion_keeps_place :
    let upstream : List Edit := [.overwrite 0 1 ['Z', 'Z'] {}]
    let source : Source := { buffer := { (Buffer.ofText "abcdef".toList).run upstream with
      filename := none } }
    let actions : List Session.Action :=
      [.create {} (some ⟨2, 5⟩) {}, .editSource (.overwrite 1 3 ['X'] {})]
    let after := Session.performAll { owner := .source source } actions
    let e : Edit := .appendLeft 1 ['y']
    (∀ ref, Session.block? { owner := .source source } ref = none) ∧
      ∃ b, after.block? (.single 0) = some b ∧ b.span = ⟨1, 4⟩ ∧ b.snippet.base = "bcd".toList ∧
        (e.apply b.snippet).accepted = true ∧ (e.within b.span).Fits 6 ∧
          ∃ source', after.source? = some source' ∧
            (source'.edit (e.within b.span)).accepted = false ∧
            ∀ err, (source'.edit (e.within b.span)).refusal? = some err →
              ∃ line column replaced, err = .splitEditedChunk line column replaced := by
  intro upstream source actions after e
  have fresh : ∀ ref, Session.block? { owner := .source source } ref = none := by
    rintro (i | ⟨r, i⟩)
    · rfl
    · rfl
  have kept := (blocks_keep_place "abcdef".toList none upstream { owner := .source source } source
    rfl rfl fresh actions).2
  let b : Block := { descriptor := {}, span := ⟨1, 4⟩, snippet := .ofText "bcd".toList }
  have there : after.block? (.single 0) = some b := rfl
  have ok : (e.apply b.snippet).accepted = true := by decide
  obtain ⟨-, text, edits⟩ := kept (.single 0) b there
  obtain ⟨fits, refusal⟩ := edits e ok
  refine ⟨fresh, b, there, rfl, text, ok, fits, _, rfl, by decide, ?_⟩
  exact refusal _ rfl rfl

end ComponentEdit
