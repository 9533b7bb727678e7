import ComponentEdit.Dialect.Svelte
import ComponentEdit.Proofs.Document.Parsing
import ComponentEdit.Proofs.Text.Search

/-!
# Where the blocks of a Svelte component are

A piece is looked for in its haystack, which for a script or style is the markup that it was
reported with. It is reported at its first place there (`Piece.block?_eq_some_iff`), and that offset
is then taken as an offset in the document. So a block shows the content of its piece only where the
document has the same content at the same offset (`Piece.showsContent_iff`). The document has it
there when the haystack is its front part (`Text.FirstAt.of_front`), and need not otherwise.
-/

namespace ComponentEdit
set_option autoImplicit false

/-- A needle stands in a text on a span that fits the text and reads like the needle. -/
theorem Text.occursAt_iff_fits {t needle : Text} {i : Nat} : OccursAt t needle i ↔
    Span.Fits t ⟨i, i + byteSize needle⟩ ∧ slice t i (i + byteSize needle) = needle := by
  rw [occursAt_iff]
  constructor
  · rintro ⟨start, stop, read⟩
    exact ⟨⟨Nat.le_add_right _ _, start, stop⟩, read⟩
  · rintro ⟨fits, read⟩
    exact ⟨fits.start, fits.stop, read⟩

/-- A block shows what its descriptor has as the content. -/
def Block.ShowsContent (b : Block) : Prop := b.render = b.descriptor.content.toList

namespace Svelte

namespace Piece
variable {piece : Piece} {t : Text} {i : Nat} {p : ParsedBlock} {b : Block}

/-- The block of a piece that was found at an offset of its haystack. -/
def blockAt (piece : Piece) (source : Text) (i : Nat) : ParsedBlock where
  role := piece.hook.role
  descriptor := { Descriptor.ofContent piece.content with
    attrs := if piece.hook = .markup then [] else piece.attributes
    placement := some (.location (.between (piece.haystack source) i
      (i + Text.byteSize piece.content.toList)))
    extra := [("parsed", piece.toJson)] }

theorem block?_eq (piece : Piece) (source : Text) : piece.block? source =
    (Text.find? (piece.haystack source) piece.content.toList).map (piece.blockAt source) := by
  have first := Location.head?_findAll (piece.haystack source) piece.content.toList
  cases found : Location.findAll (piece.haystack source) piece.content.toList with
  | nil =>
    rw [found, List.head?_nil, eq_comm, Option.map_eq_none_iff] at first
    simp [block?, found, first]
  | cons l ls =>
    rw [found, List.head?_cons, eq_comm, Option.map_eq_some_iff] at first
    obtain ⟨i, hi, rfl⟩ := first
    simp [block?, found, hi, blockAt]

/-- A piece with content is reported at the first place of the content in its haystack. -/
theorem block?_eq_some_iff : piece.block? t = some p ↔ piece.content.toList ≠ [] ∧
    ∃ i, Text.FirstAt (piece.haystack t) piece.content.toList i ∧ p = piece.blockAt t i := by
  simp only [block?_eq, Option.map_eq_some_iff, Text.find?_eq_some_iff]
  constructor
  · rintro ⟨i, ⟨ne, first⟩, rfl⟩
    exact ⟨ne, i, first, rfl⟩
  · rintro ⟨ne, i, first, rfl⟩
    exact ⟨i, ⟨ne, first⟩, rfl⟩

/-- The block of a piece is placed at the same offsets, whatever the text of the document. -/
theorem place_blockAt (here : Text.OccursAt (piece.haystack t) piece.content.toList i)
    (text : Text) :
    (piece.blockAt t i).place text = ⟨i, i + Text.byteSize piece.content.toList⟩ := by
  obtain ⟨start, stop, -⟩ := Text.occursAt_iff.1 here
  exact Location.span_between start stop

/-- The block of a piece shows the content where the document has it. -/
theorem showsContent_iff {source : Source} {f : Option String}
    (unedited : source.read = .ok { Buffer.ofText t with filename := f })
    (here : Text.OccursAt (piece.haystack t) piece.content.toList i)
    (gives : (piece.blockAt t i).Gives source.buffer b) :
    b.ShowsContent ↔ Text.OccursAt t piece.content.toList i := by
  rw [ParsedBlock.gives_unedited_iff unedited, place_blockAt here] at gives
  obtain ⟨fits, rfl⟩ := gives
  rw [Text.occursAt_iff_fits, and_iff_right fits]
  show (Buffer.ofText _).render = _ ↔ _
  rw [Buffer.render_ofText]
  rfl

end Piece

section Component
variable {d : Document} {t : Text} {f : Option String} {pieces : List Piece}
  {preprocess : Text → Except Error (List Piece)}

/-- The blocks of the pieces that are found. -/
def found (pieces : List Piece) (t : Text) : List ParsedBlock := pieces.filterMap (·.block? t)

theorem mem_found_iff {p : ParsedBlock} : p ∈ found pieces t ↔ ∃ piece ∈ pieces,
    piece.content.toList ≠ [] ∧
      ∃ i, Text.FirstAt (piece.haystack t) piece.content.toList i ∧ p = piece.blockAt t i := by
  simp only [found, List.mem_filterMap, Piece.block?_eq_some_iff]

theorem reports_found (unedited : d.source.read = .ok { Buffer.ofText t with filename := f })
    (attached : d.parser = some (parser preprocess)) (emitted : preprocess t = .ok pieces) :
    d.Reports (.ok (some (found pieces t))) := by
  obtain ⟨readable, buffer⟩ := Source.read_eq_ok_iff.1 unedited
  have text : d.source.buffer.render = t := by rw [buffer]; exact Buffer.render_ofText t
  refine ⟨readable, parser preprocess, attached, ?_⟩
  rw [text, parser, emitted]
  rfl

/-- The pieces are taken if the places in their haystacks are places of the document. -/
theorem accepted_iff_fits (unedited : d.source.read = .ok { Buffer.ofText t with filename := f })
    (reports : d.Reports (.ok (some (found pieces t)))) :
    d.parse.accepted = true ↔ ∀ p ∈ found pieces t, (p.place t).Fits t := by
  rw [Document.accepted_parse_iff reports]
  simp only [ParsedBlock.gives_unedited_iff unedited, exists_and_left, exists_eq, and_true]

/-- A block that is made for a piece sits where the piece was found, and shows the content of the
piece if the document has it there. -/
theorem made_of_found {p : ParsedBlock} {b : Block}
    (unedited : d.source.read = .ok { Buffer.ofText t with filename := f })
    (hp : p ∈ found pieces t) (gives : p.Gives d.source.buffer b) :
    b.descriptor = p.descriptor ∧ b.span = p.place t ∧
      (b.ShowsContent ↔ Text.OccursAt t p.descriptor.content.toList (p.place t).start) := by
  obtain ⟨piece, -, -, i, first, rfl⟩ := mem_found_iff.1 hp
  refine ⟨gives.descriptor, ?_, ?_⟩
  · rw [((ParsedBlock.gives_unedited_iff unedited).1 gives).2]
  · rw [Piece.place_blockAt first.1]
    exact Piece.showsContent_iff unedited first.1 gives

/-- A piece that was found in the front part of the document is found in the document. -/
theorem firstAt_of_found {p : ParsedBlock} (front : ∀ piece ∈ pieces, piece.haystack t <+: t)
    (hp : p ∈ found pieces t) :
    Text.FirstAt t p.descriptor.content.toList (p.place t).start ∧ (p.place t).Fits t := by
  obtain ⟨piece, mem, -, i, first, rfl⟩ := mem_found_iff.1 hp
  rw [Piece.place_blockAt first.1]
  have here := first.of_front (front piece mem)
  exact ⟨here, (Text.occursAt_iff_fits.1 here.1).1⟩

end Component

end Svelte

/-- **A block of a Svelte component sits where its content was found in its haystack.** Over a
document without edits, the pieces that have content in their haystack are reported at its first
place there. They are taken exactly if these places are places of the document, and then a block
shows the content that it was reported with exactly if the document has it at that place. If all
haystacks are front parts of the document, as the document itself is, the pieces are taken, and all
blocks show their contents and sit at the first place of them in the document. -/
theorem svelte_blocks_follow_haystacks (d : Document) (t : Text) (filename : Option String)
    (preprocess : Text → Except Error (List Svelte.Piece)) (pieces : List Svelte.Piece)
    (unedited : d.source.read = .ok { Buffer.ofText t with filename })
    (attached : d.parser = some (Svelte.parser preprocess)) (emitted : preprocess t = .ok pieces) :
    let found := Svelte.found pieces t
    d.Reports (.ok (some found)) ∧
      (∀ p, p ∈ found ↔ ∃ piece ∈ pieces, piece.content.toList ≠ [] ∧
        ∃ i, Text.FirstAt (piece.haystack t) piece.content.toList i ∧ p = piece.blockAt t i) ∧
      (d.parse.accepted = true ↔ ∀ p ∈ found, (p.place t).Fits t) ∧
      (d.parse.accepted = true → ∀ r, List.Forall₂
        (fun p b => b.descriptor = p.descriptor ∧ b.span = p.place t ∧
          (b.ShowsContent ↔ Text.OccursAt t p.descriptor.content.toList (p.place t).start))
        (found.filter (·.role = r)) (d.parse.left.blocks.get r)) ∧
      ((∀ piece ∈ pieces, piece.haystack t <+: t) → d.parse.accepted = true ∧
        ∀ r, ∀ b ∈ d.parse.left.blocks.get r,
          b.ShowsContent ∧ Text.FirstAt t b.descriptor.content.toList b.span.start) := by
  intro found
  have reports := Svelte.reports_found unedited attached emitted
  have accepts := Svelte.accepted_iff_fits unedited reports
  refine ⟨reports, fun p => Svelte.mem_found_iff, accepts, ?_, ?_⟩
  · intro accepted r
    obtain ⟨bs, made, outcome⟩ := Document.parse_of_accepted reports accepted
    rw [outcome]
    have each := (List.forall₂_and_left _ _).2
      ⟨fun p hp => List.mem_of_mem_filter hp, Document.gives_of_role made r⟩
    exact each.imp fun p b ⟨hp, gives⟩ => Svelte.made_of_found unedited hp gives
  · intro front
    have accepted := accepts.2 fun p hp => (Svelte.firstAt_of_found front hp).2
    obtain ⟨bs, made, outcome⟩ := Document.parse_of_accepted reports accepted
    refine ⟨accepted, ?_⟩
    rw [outcome]
    intro r b hb
    obtain ⟨p, hp, -, gives⟩ := Document.exists_gives_of_mem made hb
    obtain ⟨first, -⟩ := Svelte.firstAt_of_found front hp
    obtain ⟨descriptor, span, shows⟩ := Svelte.made_of_found unedited hp gives
    rw [descriptor, span]
    exact ⟨shows.2 first.1, first⟩

/-- A script that was reported with markup from behind a comment is at offset 8 of that markup.
The block that is made at offset 8 of the document shows some other text. -/
theorem script_behind_comment_shows_other_text :
    let t := "<!--x-->\n<script>let a</script>".toList
    let script : Svelte.Piece :=
      { hook := .script, content := "let a", markup := some "<script>let a</script>" }
    let d : Document := (Document.ofText t {}).withParser (Svelte.parser fun _ => .ok [script])
    d.parse.accepted = true ∧
      (d.parse.left.blocks.get .script).map Block.render = ["\n<scr".toList] ∧
      ∃ b, d.parse.left.blocks.get .script = [b] ∧ b.descriptor.content = "let a" ∧
        b.span = ⟨8, 13⟩ ∧ ¬b.ShowsContent ∧ ¬Text.OccursAt t "let a".toList 8 := by
  intro t script d
  have follows := svelte_blocks_follow_haystacks d t none _ [script] rfl rfl rfl
  have accepted : d.parse.accepted = true := by decide
  have first : Text.find? (script.haystack t) script.content.toList = some 8 := by decide
  have reported : script.block? t = some (script.blockAt t 8) := by
    rw [Svelte.Piece.block?_eq, first, Option.map_some]
  have role : (script.blockAt t 8).role = .script := rfl
  have found : (Svelte.found [script] t).filter (·.role = .script) = [script.blockAt t 8] := by
    simp [Svelte.found, reported, role]
  have place : (script.blockAt t 8).place t = ⟨8, 13⟩ := by decide
  have elsewhere : ¬Text.OccursAt t "let a".toList 8 := by
    rw [Text.occursAt_iff]
    decide
  have made := follows.2.2.2.1 accepted .script
  rw [found, List.forall₂_cons_left_iff] at made
  obtain ⟨b, _, ⟨descriptor, span, shows⟩, rest, blocks⟩ := made
  rw [List.forall₂_nil_left_iff.1 rest] at blocks
  exact ⟨accepted, by decide, b, blocks, congrArg Descriptor.content descriptor,
    span.trans place, mt shows.1 elsewhere, elsewhere⟩

end ComponentEdit
