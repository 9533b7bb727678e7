import ComponentEdit.Block.Source
import ComponentEdit.Buffer.Provenance
import ComponentEdit.Descriptor.Basic

/-!
# Blocks

A block is a part of a document that is edited on its own. It keeps a buffer of
its own text, the snippet, and the span of that text in the base of the
document's buffer. `Block.apply` carries an edit out in both, so that the
snippet is the edited block and the document holds the same edit in place;
neither changes if one of them refuses it.

Single operations can be replaced on a block. Its properties are read and
written by name: operations and `source` are the block's own, everything else
goes through its handler.
-/

namespace ComponentEdit
set_option autoImplicit false

/-- How the properties of a block that are not its own are read and written. -/
structure Handler where
  get? : Descriptor → String → Option Json := Descriptor.get?
  set : Descriptor → String → Json → Attempt Descriptor :=
    fun d key v => .ofExcept d (d.set key v)

/-- What an operation of a block does in place of editing. -/
abbrev Replacement := Edit → Except Error Unit

/-- A block of a document. -/
structure Block where
  descriptor : Descriptor
  /-- The block in the base text of the document's buffer. -/
  span : Span
  /-- The block's own text. -/
  snippet : Buffer
  handler : Handler := {}
  /-- The operations that are replaced, each at most once. -/
  replacements : List (Operation × Replacement) := []

/-- What a property of a block is. -/
inductive Property where
  | operation (op : Operation)
  | source (s : Source)
  | value (v : Json)

namespace Block

/-- The span of the current text that a block is made over: an explicit one,
else that of the descriptor, else all of the text. -/
def resolve (text : Text) (d : Descriptor) (span : Option Span) : Span :=
  match span, d.placement with
  | some s, _ => s
  | none, some p => p.span
  | none, none => (Location.ofWhole text).span

/-- The block over a span of the current text of a source. The span has to hold
copied text only, so that it has a place in the base. -/
def create (source : Source) (d : Descriptor) (span : Option Span) : Except Error Block := do
  let b ← source.read
  let text := b.render
  let s := resolve text d span
  match Text.slice? text s.start s.stop with
  | none => .error (.invalidOffsets s.start s.stop (Text.byteSize text))
  | some content =>
    match b.baseSpan? s with
    | none => .error (.editedRange s.start s.stop)
    | some origin => .ok { descriptor := d, span := origin, snippet := .ofText content }

/-- The edited text of a block. -/
def render (b : Block) : Text := b.snippet.render

/-- What is done in place of an operation, if it is replaced. -/
def replacement? (b : Block) (op : Operation) : Option Replacement :=
  (b.replacements.find? (·.1 == op)).map (·.2)

/-- Whether an operation is replaced. -/
def isReplaced (b : Block) (op : Operation) : Bool := (b.replacement? op).isSome

/-- Take an operation back from its replacement. -/
def restore (b : Block) (op : Operation) : Block :=
  { b with replacements := b.replacements.filter (·.1 != op) }

/-- Replace an operation on this block. -/
def replace (b : Block) (op : Operation) (r : Replacement) : Block :=
  { b with replacements := (b.restore op).replacements ++ [(op, r)] }

/-- A block and the source that it belongs to, which may be gone. -/
structure Anchored where
  block : Block
  source : Option Source

/-- Carry out an edit in the snippet and in the source. The snippet judges it
first, and takes it only when the source has taken it too. -/
def forward (b : Block) (s : Source) (e : Edit) : Attempt Anchored :=
  match e.apply b.snippet with
  | ⟨_, some err⟩ => .refused ⟨b, some s⟩ err
  | ⟨snippet, none⟩ =>
    match s.edit (e.within b.span) with
    | ⟨s, some err⟩ => .refused ⟨b, some s⟩ err
    | ⟨s, none⟩ => .done ⟨{ b with snippet }, some s⟩

/-- Apply an edit to a block. The replacement of a replaced operation gets the
edit as it is, and no text changes. -/
def apply (b : Block) (source : Option Source) (e : Edit) : Attempt Anchored :=
  match b.replacement? e.operation with
  | some r =>
    match r e with
    | .ok () => .done ⟨b, source⟩
    | .error err => .refused ⟨b, source⟩ err
  | none =>
    match Source.held source with
    | .error err => .refused ⟨b, source⟩ err
    | .ok s => b.forward s e

/-- Read a property. -/
def get (b : Block) (source : Option Source) (key : String) : Except Error (Option Property) :=
  match Operation.ofName? key with
  | some op => .ok (some (.operation op))
  | none =>
    if key = "source" then (Source.held source).map fun s => some (.source s)
    else .ok ((b.handler.get? b.descriptor key).map .value)

/-- Write a property. The name of an operation takes no value. -/
def set (b : Block) (key : String) (v : Json) : Attempt Block :=
  match Operation.ofName? key with
  | some op =>
    .refused b (.invalidProperty key
      ("`" ++ op.name ++ "` is a block operation, replace it with `replace_operation`"))
  | none => (b.handler.set b.descriptor key v).map fun d => { b with descriptor := d }

end Block

end ComponentEdit
