import ComponentEdit.Text.Basic

/-!
# Errors

Every way in which an operation of the library can fail, named for its cause.
`Error.message?` is the text a reader sees, `Error.code` a stable identifier
and `Error.help?` a hint on what to do; wording lives in these three functions
only. Errors that a reader of a foreign format reports (`io`, `configParse`,
`json`) carry no text of their own. An operation that can be refused after it
has changed something answers with an `Attempt`.
-/

namespace ComponentEdit
set_option autoImplicit false

/-- The causes of failure. -/
inductive Error where
  /-- A file could not be read. -/
  | io
  /-- Offsets out of order, out of range or inside a character. -/
  | invalidOffsets (start stop length : Nat)
  /-- An offset inside a character. -/
  | notCharBoundary (offset : Nat)
  /-- An offset past the end of the base text. -/
  | outOfBounds (index length : Nat)
  /-- A range that ends before it starts. -/
  | invertedRange (start stop : Nat)
  /-- An empty range where something has to be replaced. -/
  | zeroLengthOverwrite (offset : Nat)
  /-- A cut through text that was put in place of `replaced`; the line counts from one. -/
  | splitEditedChunk (line column : Nat) (replaced : Text)
  /-- A block over text that is not copied from the base. -/
  | editedRange (start stop : Nat)
  /-- A document without a parser was to be parsed. -/
  | missingParser
  /-- The buffer of a block is gone. -/
  | detachedBlock
  /-- The buffer is in use. -/
  | sourceBorrowed
  /-- A property that cannot take the given value. -/
  | invalidProperty (key reason : String)
  /-- A configuration that cannot be read. -/
  | configParse
  /-- A source map that cannot be written. -/
  | sourceMap
  /-- A JSON value of the wrong shape. -/
  | json
deriving DecidableEq, Repr, Inhabited

namespace Error

/-- The text of an error, where the library words it. -/
def message? : Error → Option String
  | .io | .configParse | .sourceMap | .json => none
  | .invalidOffsets start stop length =>
    some s!"invalid start or end offsets: {start}..{stop} (text length: {length})"
  | .notCharBoundary offset => some s!"offset {offset} does not fall on a character boundary"
  | .outOfBounds index length =>
    some s!"character is out of bounds: {index} (original length: {length})"
  | .invertedRange start stop => some s!"end must be greater than start: {start}..{stop}"
  | .zeroLengthOverwrite offset => some s!"cannot overwrite a zero-length range at {offset}"
  | .splitEditedChunk line column replaced =>
    some ("cannot split a chunk that has already been edited (" ++ toString line ++ ":" ++
      toString column ++ ", \"" ++ String.ofList replaced ++ "\")")
  | .editedRange start stop =>
    some ("block range " ++ toString start ++ ".." ++ toString stop ++
      " covers text that was already edited in the source buffer")
  | .missingParser => some "a parser adapter must be provided before a document can be parsed"
  | .detachedBlock => some "block is detached from its source buffer"
  | .sourceBorrowed => some "source buffer is already borrowed"
  | .invalidProperty key reason => some ("cannot assign property `" ++ key ++ "`: " ++ reason)

/-- The stable identifier of an error. -/
def code : Error → String
  | .io => "sfc::io_error"
  | .invalidOffsets .. => "sfc::invalid_offsets"
  | .notCharBoundary .. => "sfc::not_char_boundary"
  | .outOfBounds .. => "sfc::out_of_bounds"
  | .invertedRange .. => "sfc::inverted_range"
  | .zeroLengthOverwrite .. => "sfc::zero_length_overwrite"
  | .splitEditedChunk .. => "sfc::split_edited_chunk"
  | .editedRange .. => "sfc::edited_range"
  | .missingParser => "sfc::missing_parser"
  | .detachedBlock => "sfc::detached_block"
  | .sourceBorrowed => "sfc::source_borrowed"
  | .invalidProperty .. => "sfc::invalid_property"
  | .configParse => "sfc::config_parse"
  | .sourceMap => "sfc::sourcemap"
  | .json => "sfc::json"

/-- A hint on how to avoid an error. -/
def help? : Error → Option String
  | .invalidOffsets .. => some "offsets must satisfy `start <= end <= text length`"
  | .zeroLengthOverwrite .. =>
    some "use `append_left` or `prepend_right` to insert content instead"
  | .splitEditedChunk .. =>
    some "edit whole ranges that were already overwritten instead of parts of them"
  | .editedRange .. => some "create blocks before editing the text they cover"
  | .missingParser =>
    some ("attach one with `MagicSfc::with_parser`, or set `silent = true` " ++
      "to make parsing a no-op")
  | .detachedBlock => some "the document owning this block has been dropped"
  | .configParse => some "check that sfc.toml is valid TOML with an optional [sourcemap] section"
  | _ => none

end Error

/-- What an operation leaves behind and, if it was refused, why. -/
structure Attempt (σ : Type) where
  left : σ
  refusal? : Option Error
deriving Repr, DecidableEq

namespace Attempt
variable {σ τ : Type}

/-- Success that leaves `s`. -/
def done (s : σ) : Attempt σ := ⟨s, none⟩

/-- Failure that leaves `s`. -/
def refused (s : σ) (e : Error) : Attempt σ := ⟨s, some e⟩

/-- An outcome that leaves `s` unless it succeeds. -/
def ofExcept (s : σ) : Except Error σ → Attempt σ
  | .ok t => done t
  | .error e => refused s e

/-- The same outcome seen from a larger state. -/
def map (f : σ → τ) (a : Attempt σ) : Attempt τ := ⟨f a.left, a.refusal?⟩

/-- Whether the operation was accepted. -/
def accepted (a : Attempt σ) : Bool := a.refusal?.isNone

@[simp] theorem left_done (s : σ) : (done s).left = s := rfl

@[simp] theorem left_refused (s : σ) (e : Error) : (refused s e).left = s := rfl

@[simp] theorem accepted_done (s : σ) : (done s).accepted = true := rfl

@[simp] theorem accepted_refused (s : σ) (e : Error) : (refused s e).accepted = false := rfl

end Attempt

end ComponentEdit
