import ComponentEdit.Proofs.SourceMap.Decoding
import ComponentEdit.Proofs.SourceMap.Resolution

/-!
# What a written map tells its readers

The tokens of a buffer stand strictly one behind the other, each at a character of the rendered
text. So the written form of the map, with its tokens as differences and its lines as semicolons,
is decoded to just these tokens, with their names, and to the names and the text of the source that
the options ask for (`map_json_lossless`).
-/

namespace ComponentEdit
set_option autoImplicit false

namespace Buffer
variable {b : Buffer}

/-- A map of a buffer is decoded to its tokens. -/
theorem Tiled.decode?_render_sourceMap (h : b.Tiled) (options : MapOptions) :
    SourceMap.decode? (b.sourceMap options).render = some
      { file := options.file
        sources := [(options.source <|> b.filename).getD ""]
        contents := if options.includeContent then [some b.base] else []
        mappings := (b.tokens options.hires).map
          (SourceMap.Mapping.ofToken ((options.source <|> b.filename).getD "")) } := by
  have lines : (b.sourceMap options).tokens.Pairwise fun x y =>
      x.generated.line ≤ y.generated.line :=
    (h.tokens_ordered options.hires).imp fun before => by
      unfold Caret.Before at before
      omega
  rw [SourceMap.decode?_render lines]
  cases embed : options.includeContent <;> simp [sourceMap, embed]

end Buffer

/-- **The written form of a map loses nothing.** Its tokens stand strictly one behind the other,
each at a character of the rendered text, and readers of the format get just these tokens out of
it, with the name of the source, the name of the file if there is one, and the text of the source
if it is to be embedded. -/
theorem map_json_lossless (t : Text) (filename : Option String) (edits : List Edit)
    (options : MapOptions) :
    let b : Buffer := { (Buffer.ofText t).run edits with filename }
    let m := b.sourceMap options
    let source := (options.source <|> filename).getD ""
    m.tokens.Pairwise (fun x y => x.generated.Before y.generated) ∧
      (∀ token ∈ m.tokens, ∃ k < b.render.length,
        token.generated = Caret.origin.after (b.render.take k)) ∧
      SourceMap.decode? m.render = some
        { file := options.file
          sources := [source]
          contents := if options.includeContent then [some t] else []
          mappings := m.tokens.map (SourceMap.Mapping.ofToken source) } := by
  intro b m source
  have tiled : b.Tiled := Buffer.tiled_reached t filename edits
  have base : b.base = t := Buffer.run_base _ edits
  refine ⟨tiled.tokens_ordered options.hires, ?_, ?_⟩
  · intro token mem
    obtain ⟨k, hk, made⟩ := tiled.exists_of_mem_tokens ((b.tokens_sublist options.hires).mem mem)
    exact ⟨k, hk, Buffer.generated_of_tokenAt? made⟩
  · rw [tiled.decode?_render_sourceMap options, base]
    rfl

/-- The two lines of a replacement bear its name; the second line of the source is one column to the
left of what was copied before it. -/
example :
    let b := (Buffer.ofText "ab\ncd".toList).run
      [.overwrite 0 1 "x\ny".toList { storeName := true }]
    let m := b.sourceMap {}
    let name := some ['a']
    m.tokens = [⟨⟨0, 0⟩, ⟨0, 0⟩, name⟩, ⟨⟨1, 0⟩, ⟨0, 0⟩, name⟩, ⟨⟨1, 1⟩, ⟨0, 1⟩, none⟩,
        ⟨⟨2, 0⟩, ⟨1, 0⟩, none⟩] ∧
      m.mappings = "AAAAA;AAAAA,CAAC;AACD".toList ∧
      (SourceMap.decode? m.render).map (·.mappings) =
        some (m.tokens.map (SourceMap.Mapping.ofToken "")) := by
  decide +kernel

end ComponentEdit
