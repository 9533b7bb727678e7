import ComponentEdit.Proofs.Descriptor.Fields
import ComponentEdit.Proofs.Dialect.Astro
import ComponentEdit.Proofs.Dialect.Svelte

/-!
# Descriptors survive JSON

Typed and extra fields share one object, so a descriptor is read back only if its extra fields have
other keys than the typed ones. No descriptor that the library makes (`Descriptor.Made`) has them:
each way to make one keeps `Descriptor.KeyedOnce`. Its written form then has every key once, and
reading it gives the same descriptor back (`ofJson?_toJson`).
-/

namespace ComponentEdit
set_option autoImplicit false

theorem Position.distinct_toJson (p : Position) : p.toJson.Distinct :=
  (JsonObject.Among.cons "offset" (.number _) (.cons "line" (.number _)
    (.one "column" (.number _)))).distinct (by decide)

theorem Placement.distinct_toJson (p : Placement) : p.toJson.Distinct := by
  cases p with
  | location l =>
    exact (JsonObject.Among.cons "start" l.start.distinct_toJson (.cons "end" l.stop.distinct_toJson
      (.one "source" (.string _)))).distinct (by decide)
  | offsets s =>
    exact (JsonObject.Among.cons "start" (.number _) (.one "end" (.number _))).distinct (by decide)

theorem Svelte.Piece.distinct_toJson (p : Svelte.Piece) (h : (Json.object p.attributes).Distinct) :
    p.toJson.Distinct :=
  have named := JsonObject.Among.cons "hook" (.string p.hook.name) (.one "content" (.string p.content))
  (((named.append (.whenFilled "attributes" h)).append (.whenSet "markup" p.markup .string)).append
    (.whenSet "filename" p.filename .string)).distinct (by decide)

namespace Descriptor
variable {d d' : Descriptor} {key : String} {v : Json}

/-- No key is there twice in what is written of a descriptor. -/
structure KeyedOnce (d : Descriptor) : Prop where
  untyped : ∀ f ∈ d.extra, f.1 ∉ typedKeys
  attrs : (Json.object d.attrs).Distinct
  extra : (Json.object d.extra).Distinct

/-- The descriptors that the library makes. Values that come in have no repeated keys. -/
inductive Made : Descriptor → Prop where
  | ofContent (content : String) : Made (ofContent content)
  | withKind {d : Descriptor} (h : Made d) (kind : String) : Made (d.withKind kind)
  | withAttr {d : Descriptor} (h : Made d) (key : String) {v : Json} (hv : v.Distinct) :
      Made (d.withAttr key v)
  | withLang {d : Descriptor} (h : Made d) (lang : String) : Made (d.withLang lang)
  | withScoped {d : Descriptor} (h : Made d) (isScoped : Bool) : Made (d.withScoped isScoped)
  | withSrc {d : Descriptor} (h : Made d) (src : String) : Made (d.withSrc src)
  | withPlacement {d : Descriptor} (h : Made d) (p : Placement) : Made (d.withPlacement p)
  | set {d d' : Descriptor} (h : Made d) {key : String} {v : Json} (hv : v.Distinct)
      (written : d.set key v = .ok d') : Made d'
  | ofJson {d : Descriptor} {v : Json} (hv : v.Distinct) (read : ofJson? v = some d) : Made d
  | svelte {preprocess : Text → Except Error (List Svelte.Piece)} {source : Text}
      {pieces : List Svelte.Piece} {found : List ParsedBlock} {b : ParsedBlock}
      (emitted : preprocess source = .ok pieces)
      (attributes : ∀ p ∈ pieces, (Json.object p.attributes).Distinct)
      (reported : Svelte.parser preprocess source = .ok (some found)) (hb : b ∈ found) :
      Made b.descriptor
  | astro {compile : Text → Except Error (Option Astro.Node)} {source : Text}
      {found : List ParsedBlock} {b : ParsedBlock}
      (reported : Astro.parser compile source = .ok (some found)) (hb : b ∈ found) :
      Made b.descriptor

section Written

/-- What is written of a descriptor in front of its extra fields. -/
theorem exists_front (attrs : (Json.object d.attrs).Distinct) :
    ∃ front, d.toFields = front ++ d.extra ∧ JsonObject.Among front typedKeys :=
  ⟨_, rfl, ((((((JsonObject.Among.whenSet "type" d.kind .string).append
    (.whenFilled "attrs" attrs)).append (.whenSet "lang" d.lang .string)).append
    (.whenSet "scoped" d.isScoped .bool)).append (.whenSet "src" d.src .string)).append
    (.one "content" (.string _))).append
    (.whenSet "loc" d.placement Placement.distinct_toJson)⟩

theorem KeyedOnce.distinct_toJson (h : d.KeyedOnce) : d.toJson.Distinct := by
  obtain ⟨front, written, among⟩ := exists_front h.attrs
  rw [toJson, written]
  refine .object ?_ (List.forall_mem_append.2 ⟨among.each, fun f hf => h.extra.of_mem hf⟩)
  rw [List.map_append, List.nodup_append]
  refine ⟨(by decide : typedKeys.Nodup).sublist among.keys, h.extra.keys_nodup, ?_⟩
  rintro key front _ extra rfl
  obtain ⟨f, hf, rfl⟩ := List.mem_map.1 extra
  exact h.untyped f hf (among.keys.subset front)

/-- A descriptor is read back from what was written of it. -/
theorem ofJson?_toJson (h : d.KeyedOnce) : ofJson? d.toJson = some d := by
  have holds := get?_toFields h.untyped
  have kind : JsonObject.field? d.toFields "type" Json.string? = some d.kind :=
    JsonObject.field?_of_get? (holds "type") fun _ => rfl
  have lang : JsonObject.field? d.toFields "lang" Json.string? = some d.lang :=
    JsonObject.field?_of_get? (holds "lang") fun _ => rfl
  have isScoped : JsonObject.field? d.toFields "scoped" Json.bool? = some d.isScoped :=
    JsonObject.field?_of_get? (holds "scoped") fun _ => rfl
  have src : JsonObject.field? d.toFields "src" Json.string? = some d.src :=
    JsonObject.field?_of_get? (holds "src") fun _ => rfl
  have placement : JsonObject.field? d.toFields "loc" Placement.ofJson? = some d.placement :=
    JsonObject.field?_of_get? (holds "loc") fun p =>
      Placement.nullable_ofJson?_iff.2 (.inr ⟨p, p.hasForm_toJson, rfl⟩)
  have attrs : JsonObject.fieldOr d.toFields "attrs" [] Json.object? = some d.attrs := by
    rw [JsonObject.fieldOr, holds "attrs"]
    cases empty : d.attrs with
    | nil => simp
    | cons f fields => simp [get?, empty, Json.object?]
  have content : JsonObject.fieldOr d.toFields "content" "" Json.string? = some d.content := by
    rw [JsonObject.fieldOr, holds "content"]
    rfl
  have extra : (d.toFields.filter fun f => !typedKeys.contains f.1) = d.extra := by
    obtain ⟨front, written, among⟩ := exists_front h.attrs
    have typed : ∀ f ∈ front, f.1 ∈ typedKeys := fun f hf =>
      among.keys.subset (List.mem_map_of_mem hf)
    rw [written, List.filter_append, List.filter_eq_nil_iff.2, List.filter_eq_self.2,
      List.nil_append]
    · exact fun f hf => by simpa using h.untyped f hf
    · exact fun f hf => by simpa using typed f hf
  simp only [ofJson?, toJson, Json.object?, Option.bind_eq_bind, Option.bind_some, kind, lang,
    isScoped, src, placement, attrs, content, extra]

end Written

section Kept

theorem KeyedOnce.of_writes (h : d.KeyedOnce) (hv : v.Distinct) (writes : d.Writes key v d') :
    d'.KeyedOnce := by
  obtain ⟨untyped, attrs, extra⟩ := h
  cases writes with
  | attrs o => exact ⟨untyped, hv, extra⟩
  | extra free =>
    refine ⟨fun f hf => ?_, attrs, extra.insert key hv⟩
    rcases JsonObject.mem_insert hf with rfl | hf
    · exact free
    · exact untyped f hf
  | _ => exact ⟨untyped, attrs, extra⟩

theorem keyedOnce_of_ofJson? (hv : v.Distinct) (read : ofJson? v = some d) : d.KeyedOnce := by
  simp only [ofJson?, Option.bind_eq_bind, Option.bind_eq_some_iff, Json.object?_eq_some_iff] at read
  obtain ⟨o, rfl, _, -, attrs, hattrs, _, -, _, -, _, -, _, -, _, -, ⟨⟩⟩ := read
  refine ⟨fun f hf => by simpa using (List.mem_filter.1 hf).2, ?_, hv.sublist List.filter_sublist⟩
  unfold JsonObject.fieldOr at hattrs
  split at hattrs
  · cases hattrs
    exact .nil
  case h_2 found =>
    rw [Json.object?_eq_some_iff] at hattrs
    exact hv.of_get? (hattrs ▸ found)

theorem keyedOnce_of_svelte {piece : Svelte.Piece} {source : Text} {b : ParsedBlock}
    (attributes : (Json.object piece.attributes).Distinct) (found : piece.block? source = some b) :
    b.descriptor.KeyedOnce := by
  obtain ⟨-, i, -, rfl⟩ := Svelte.Piece.block?_eq_some_iff.1 found
  have parsed : "parsed" ∉ typedKeys := by decide
  refine ⟨List.forall_mem_singleton.2 parsed, ?_,
    .singleton _ (piece.distinct_toJson attributes)⟩
  show (Json.object (if piece.hook = .markup then [] else piece.attributes)).Distinct
  split
  · exact .nil
  · exact attributes

theorem exists_of_reported {compile : Text → Except Error (Option Astro.Node)} {source : Text}
    {found : List ParsedBlock} (reported : Astro.parser compile source = .ok (some found)) :
    ∃ root : Astro.Node, found = root.blocks source := by
  unfold Astro.parser at reported
  cases compiled : compile source with
  | error e =>
    rw [compiled] at reported
    cases reported
  | ok tree =>
    rw [compiled] at reported
    obtain ⟨root, -, rfl⟩ := Option.map_eq_some_iff.1 (Except.ok.inj reported)
    exact ⟨root, rfl⟩

theorem keyedOnce_of_astro (n : Astro.Node) (source : Text) (range : Span) :
    (n.descriptor source range).KeyedOnce := by
  have attrs : (Json.object n.attrs).Distinct := by
    refine Json.Distinct.nil.insertAll fun f hf => ?_
    obtain ⟨a, -, rfl⟩ := List.mem_map.1 hf
    show a.toValue.Distinct
    unfold Astro.Attribute.toValue
    split
    · exact .bool _
    · exact .string _
  have name : JsonObject.Among (if n.name.isEmpty then [] else [("name", .string n.name)]) ["name"] := by
    split
    · exact .nil _
    · exact .one _ (.string _)
  refine ⟨fun f hf => ?_, ?_, name.distinct (by decide)⟩
  · have key : f.1 ∈ ["name"] := name.keys.subset (List.mem_map_of_mem hf)
    rw [List.mem_singleton.1 key]
    decide
  · show (Json.object (if n.kind = .frontmatter then _ else n.attrs)).Distinct
    split
    · exact attrs.insert _ (.bool true)
    · exact attrs

/-- No key is there twice in a descriptor that the library has made. -/
theorem Made.keyedOnce (h : d.Made) : d.KeyedOnce := by
  induction h with
  | ofContent content => exact ⟨fun _ h => absurd h List.not_mem_nil, .nil, .nil⟩
  | withAttr h key hv ih => exact ⟨ih.untyped, ih.attrs.insert key hv, ih.extra⟩
  | withKind h kind ih => exact ⟨ih.untyped, ih.attrs, ih.extra⟩
  | withLang h lang ih => exact ⟨ih.untyped, ih.attrs, ih.extra⟩
  | withScoped h isScoped ih => exact ⟨ih.untyped, ih.attrs, ih.extra⟩
  | withSrc h src ih => exact ⟨ih.untyped, ih.attrs, ih.extra⟩
  | withPlacement h p ih => exact ⟨ih.untyped, ih.attrs, ih.extra⟩
  | set h hv written ih => exact ih.of_writes hv (set_eq_ok_iff.1 written)
  | ofJson hv read => exact keyedOnce_of_ofJson? hv read
  | @svelte preprocess source pieces found b emitted attributes reported hb =>
    rw [Svelte.parser, emitted] at reported
    cases reported
    obtain ⟨piece, hp, found⟩ := List.mem_filterMap.1 hb
    exact keyedOnce_of_svelte (attributes piece hp) found
  | @astro compile source found b reported hb =>
    obtain ⟨root, rfl⟩ := exists_of_reported reported
    rw [Astro.Node.blocks_eq_walk] at hb
    obtain ⟨f, -, rfl⟩ := List.mem_map.1 hb
    exact keyedOnce_of_astro f.node source f.range

end Kept

end Descriptor

/-- **Descriptors survive JSON.** A descriptor that was made by the library, from scratch, by its
setters, from JSON without repeated keys, or by a parser, has no typed key among its extra fields.
It is written as an object without repeated keys, and reading that gives the same descriptor back:
with its placement in the same shape, and its attributes and extra fields in the same order. -/
theorem descriptor_json_lossless (d : Descriptor) (made : d.Made) :
    (∀ key ∈ Descriptor.typedKeys, JsonObject.get? d.extra key = none) ∧
      d.toJson.Distinct ∧ Descriptor.ofJson? d.toJson = some d := by
  have once := made.keyedOnce
  refine ⟨fun key typed => ?_, once.distinct_toJson, Descriptor.ofJson?_toJson once⟩
  exact JsonObject.get?_eq_none_iff.2 fun f hf same => once.untyped f hf (same ▸ typed)

/-- A block that was read from JSON, with its place as a pair of offsets, and then got a further
field. The place stays a pair, and the new field is behind the one that was read. -/
theorem extended_block_survives :
    let v : Json := .object [("map", .null), ("content", .string "a"), ("type", .string "i18n"),
      ("loc", .object [("start", .nat 6), ("end", .nat 7)]),
      ("attrs", .object [("lang", .string "json"), ("global", .bool true)])]
    let d : Descriptor :=
      { kind := some "i18n", content := "a", placement := some (.offsets ⟨6, 7⟩)
        attrs := [("lang", .string "json"), ("global", .bool true)], extra := [("map", .null)] }
    let named : Descriptor := { d with extra := [("map", .null), ("name", .string "a")] }
    v.Distinct ∧ Descriptor.ofJson? v = some d ∧ d.set "name" (.string "a") = .ok named ∧
      named.Made ∧ named.toJson.Distinct ∧ Descriptor.ofJson? named.toJson = some named := by
  intro v d named
  have attrs : (Json.object d.attrs).Distinct :=
    (JsonObject.Among.cons "lang" (.string _) (.one "global" (.bool _))).distinct (by decide)
  have place : (Placement.offsets ⟨6, 7⟩).toJson.Distinct := Placement.distinct_toJson _
  have distinct : v.Distinct :=
    (JsonObject.Among.cons "map" .null (.cons "content" (.string _) (.cons "type" (.string _)
      (.cons "loc" place (.one "attrs" attrs))))).distinct (by decide)
  have read : Descriptor.ofJson? v = some d := rfl
  have written : d.set "name" (.string "a") = .ok named := rfl
  have made : named.Made := .set (.ofJson distinct read) (.string _) written
  obtain ⟨-, once, back⟩ := descriptor_json_lossless named made
  exact ⟨distinct, read, written, made, once, back⟩

end ComponentEdit
