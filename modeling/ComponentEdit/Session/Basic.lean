import ComponentEdit.Document.Basic

/-!
# Editing sessions

A session is a buffer, alone or as part of a document, with the blocks that are
at hand: those of the document's roles and those made one by one. Blocks made
one by one outlive the owner of the buffer, and are detached then. Edits that
went to a replaced operation are logged.
-/

namespace ComponentEdit
set_option autoImplicit false

/-- What owns the buffer of a session. -/
inductive Owner where
  | source (s : Source)
  | document (d : Document)
  | gone

namespace Owner

/-- The buffer, while its owner is there. -/
def source? : Owner → Option Source
  | .source s => some s
  | .document d => some d.source
  | .gone => none

/-- The document, if the owner is one. -/
def document? : Owner → Option Document
  | .document d => some d
  | _ => none

/-- The same owner with another state of the buffer. -/
def withSource (o : Owner) (s : Source) : Owner :=
  match o with
  | .source _ => .source s
  | .document d => .document { d with source := s }
  | .gone => .gone

end Owner

/-- Which block of a session is meant. -/
inductive BlockRef where
  | single (index : Nat)
  | ofRole (role : Role) (index : Nat)
deriving DecidableEq, Repr

/-- A buffer, its owner and the blocks at hand. -/
structure Session where
  owner : Owner
  /-- The blocks that were made one by one. -/
  blocks : List Block := []
  /-- Edits that went to a replaced operation, oldest first. -/
  log : List Edit := []

namespace Session

/-- The buffer, while its owner is there. -/
def source? (s : Session) : Option Source := s.owner.source?

/-- The document, if there is one. -/
def document? (s : Session) : Option Document := s.owner.document?

/-- Another state of the buffer. -/
def withSource (s : Session) (source : Source) : Session :=
  { s with owner := s.owner.withSource source }

/-- Another state of the document. -/
def withDocument (s : Session) (d : Document) : Session := { s with owner := .document d }

/-- The block that is meant, if there is one. -/
def block? (s : Session) : BlockRef → Option Block
  | .single i => s.blocks[i]?
  | .ofRole r i => do ((← s.document?).blocks.get r)[i]?

/-- Another state of a block. -/
def putBlock (s : Session) (ref : BlockRef) (b : Block) : Session :=
  match ref with
  | .single i => { s with blocks := s.blocks.set i b }
  | .ofRole r i =>
    match s.document? with
    | some d => s.withDocument { d with blocks := d.blocks.put r ((d.blocks.get r).set i b) }
    | none => s

section Same
variable {s : Session} {source : Source} {ref : BlockRef} {b : Block}

/-- A source that takes the place of the one that is there. -/
theorem source?_withSource (held : s.source? = some source) (next : Source) :
    (s.withSource next).source? = some next := by
  obtain ⟨owner, blocks, log⟩ := s
  cases owner <;> simp_all [source?, Owner.source?, withSource, Owner.withSource]

theorem withSource_self (held : s.source? = some source) : s.withSource source = s := by
  obtain ⟨owner, blocks, log⟩ := s
  cases owner with
  | source own =>
    cases held
    rfl
  | document d =>
    cases held
    rfl
  | gone => cases held

theorem block?_withSource (s : Session) (source : Source) (ref : BlockRef) :
    (s.withSource source).block? ref = s.block? ref := by
  obtain ⟨owner, blocks, log⟩ := s
  cases ref <;> cases owner <;> rfl

theorem putBlock_self (hb : s.block? ref = some b) : s.putBlock ref b = s := by
  cases ref with
  | single i =>
    obtain ⟨_, rfl⟩ := List.getElem?_eq_some_iff.1 hb
    simp [putBlock]
  | ofRole r i =>
    obtain ⟨owner, blocks, log⟩ := s
    obtain ⟨d, hd, hb⟩ := Option.bind_eq_some_iff.1 hb
    cases owner <;> cases hd
    obtain ⟨_, rfl⟩ := List.getElem?_eq_some_iff.1 hb
    simp [putBlock, document?, Owner.document?, withDocument, RoleLists.put_get]

end Same

/-- Make a block over the current text. -/
def create (s : Session) (d : Descriptor) (span : Option Span) (handler : Handler) :
    Except Error Session := do
  let source ← Source.held s.source?
  let b ← Block.create source d span
  return { s with blocks := s.blocks ++ [{ b with handler }] }

/-- Apply an edit to a block. -/
def edit (s : Session) (ref : BlockRef) (b : Block) (e : Edit) : Attempt Session :=
  (b.apply s.source? e).map fun a =>
    let s := if b.isReplaced e.operation then { s with log := s.log ++ [e] } else s
    let s := match a.source with
      | some source => s.withSource source
      | none => s
    s.putBlock ref a.block

/-- Run the document's parser, whose results are now those of `p`. -/
def parse (s : Session) (d : Document) (p : Parser) : Attempt Session :=
  let attached := { d with parser := d.parser.map fun _ => p }
  attached.parse.map fun e => s.withDocument { e with parser := d.parser }

/-- Move the blocks of a role to those made one by one. -/
def take (s : Session) (d : Document) (role : Role) : Session :=
  { s.withDocument { d with blocks := d.blocks.put role [] } with
    blocks := s.blocks ++ d.blocks.get role }

/-- Give up the owner of the buffer, and the buffer with it. -/
def drop (s : Session) : Session := { s with owner := .gone }

/-- The session while its buffer is in use, or the error that it already is. -/
def acquire (s : Session) (access : Access) : Except Error Session := do
  let source ← Source.held s.source?
  let _ ← if access = .writing then source.write else source.read
  return s.withSource { source with access }

/-- The session with its buffer in the given use. -/
def release (s : Session) (access : Access) : Session :=
  match s.source? with
  | some source => s.withSource { source with access }
  | none => s

end Session

end ComponentEdit
