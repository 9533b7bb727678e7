import ComponentEdit.Dialect.Vue
import ComponentEdit.Proofs.Json.Objects
import ComponentEdit.Proofs.Markup.Attributes

/-!
# The attributes of a Vue tag

Five sources go into one tag: the flags `scoped` and `setup`, the attributes of the descriptor, and
its typed fields `lang` and `src`. `Vue.tagFields` lists what they give in the order of the tag. The
flags are left out of the attributes, so they stand in the tag once; the typed fields are not, so an
attribute `lang` or `src` stands there next to the typed one (`vue_tag_attributes`).
-/

namespace ComponentEdit
set_option autoImplicit false

namespace Vue

/-- A bare key as a field, if it applies. -/
def flagField (key : String) (applies : Bool) : JsonObject :=
  if applies then [(key, .bool true)] else []

/-- What the parts of the tag of a block give. -/
def tagRows (d : Descriptor) : List JsonObject :=
  [flagField "scoped" (d.isScoped == some true || d.hasAttr "scoped"),
    d.attrs.filter fun f => !(["setup", "scoped"].contains f.1),
    JsonObject.whenSet "lang" d.lang .string,
    JsonObject.whenSet "src" d.src .string,
    flagField "setup" (d.hasAttr "setup")]

/-- What the tag of a block holds. -/
def tagFields (d : Descriptor) : JsonObject := (tagRows d).flatten

section Tag
variable {d : Descriptor} {f : String × Json} {key : String}

theorem flag_eq (key : String) (applies : Bool) :
    flag key applies = Markup.inline ((flagField key applies).map .ofField) := by
  cases applies <;> simp [flag, flagField, Markup.inline, Markup.Attribute.text_ofField,
    Markup.writeAttribute]

theorem fieldAttribute_eq (key : String) (value : Option String) : fieldAttribute key value =
    Markup.inline ((JsonObject.whenSet key value .string).map .ofField) := by
  cases value <;> simp [fieldAttribute, JsonObject.whenSet, Markup.inline,
    Markup.Attribute.text_ofField]

theorem writeBlock_eq (d : Descriptor) (role : Role) : writeBlock (some d) role =
    Markup.element (tagName d role) (((tagRows d).map (List.map .ofField)).map Markup.inline)
      d.content.toList := by
  simp only [writeBlock, tagRows, flag_eq, fieldAttribute_eq, Markup.writeAttributes_eq,
    List.map_cons, List.map_nil]

theorem mem_tagFields (h : f ∈ tagFields d) :
    f ∈ d.attrs ∨ f.1 ∈ ["scoped", "lang", "src", "setup"] := by
  simp only [tagFields, tagRows, List.flatten_cons, List.flatten_nil, List.append_nil,
    List.mem_append, flagField, JsonObject.whenSet] at h
  grind

/-- The keys of a tag are names if those of the attributes are. -/
theorem isName_tagFields (names : ∀ f ∈ d.attrs, Markup.IsName f.1.toList) :
    ∀ f ∈ tagFields d, Markup.IsName f.1.toList := by
  intro f hf
  rcases mem_tagFields hf with hf | hf
  · exact names f hf
  · revert hf
    generalize f.1 = key
    simp only [List.mem_cons, List.not_mem_nil, or_false]
    rintro (rfl | rfl | rfl | rfl) <;> decide

/-- The tag of a block is read back if no value holds a quote, and only then. -/
theorem exists_tag (names : ∀ f ∈ d.attrs, Markup.IsName f.1.toList) (role : Role) :
    ∃ tag, writeBlock (some d) role = '<' :: (tagName d role ++ tag) ∧
      (Markup.readAttributes tag = some ((tagFields d).map .ofField,
          '>' :: '\n' :: (d.content.toList ++ '\n' :: '<' :: '/' :: (tagName d role ++ ['>']))) ↔
        ∀ f ∈ tagFields d, (Markup.Attribute.ofField f).Quotable) := by
  have flat : ((tagRows d).map (List.map Markup.Attribute.ofField)).flatten =
      (tagFields d).map .ofField := List.map_flatten.symm
  have named : ∀ a ∈ (tagFields d).map Markup.Attribute.ofField, Markup.IsName a.name :=
    List.forall_mem_map.2 (isName_tagFields names)
  obtain ⟨tag, written, read⟩ := Markup.element_rows
    (fun as has a ha => (named a (flat ▸ List.mem_flatten_of_mem has ha)).1)
    (tagName d role) d.content.toList
  refine ⟨tag, (writeBlock_eq d role).trans written, ?_⟩
  rw [read, flat]
  constructor
  · exact fun same => List.forall_mem_map.1 (Markup.quotable_of_readAttributes same)
  · intro quotable
    have each := List.forall_mem_map.2 quotable
    rw [Markup.readAttributes_spaced (fun a ha => ⟨named a ha, each a ha⟩) rfl,
      Markup.readAttributes_close]
    simp

theorem filter_flagField (key other : String) (applies : Bool) :
    (flagField key applies).filter (·.1 == other) =
      if key = other then flagField key applies else [] := by
  cases applies <;> simp [flagField, List.filter_cons]

/-- What the tag holds under a key: a flag, or the attribute and behind it the typed field. -/
theorem filter_tagFields (distinct : (d.attrs.map (·.1)).Nodup) (key : String) :
    (tagFields d).filter (·.1 == key) =
      if key = "scoped" then flagField key (d.isScoped == some true || d.hasAttr key)
      else if key = "setup" then flagField key (d.hasAttr key)
      else ((JsonObject.get? d.attrs key).toList ++
        (if key ∈ ["lang", "src"] then d.get? key else none).toList).map (Prod.mk key) := by
  have others : (d.attrs.filter fun f => !(["setup", "scoped"].contains f.1)).filter (·.1 == key) =
      if key ∈ ["setup", "scoped"] then []
      else (JsonObject.get? d.attrs key).toList.map (Prod.mk key) := by
    rw [List.filter_comm, JsonObject.filter_key distinct]
    split
    case isTrue skipped => simpa using fun _ _ => or_iff_not_imp_left.1 (List.mem_pair.1 skipped)
    case isFalse kept => simpa using fun _ _ => not_or.1 (mt List.mem_pair.2 kept)
  simp only [tagFields, tagRows, List.filter_flatten, List.map_cons, List.map_nil, others,
    filter_flagField, JsonObject.filter_whenSet]
  -- Each of the four fixed keys is that of one row; every other key is in the attributes alone.
  by_cases isScoped : key = "scoped"
  · simp [isScoped]
  by_cases isSetup : key = "setup"
  · simp [isSetup]
  by_cases isLang : key = "lang"
  · simp [isLang, Descriptor.get?]
  by_cases isSrc : key = "src"
  · simp [isSrc, Descriptor.get?]
  · simp [isScoped, isSetup, isLang, isSrc, Ne.symm]

/-- A key stands in the tag twice if it is an attribute and a typed field, and in no other way. -/
theorem keys_tagFields_nodup_iff (distinct : (d.attrs.map (·.1)).Nodup) :
    ((tagFields d).map (·.1)).Nodup ↔ ∀ key ∈ ["lang", "src"], (d.get? key).isSome →
      JsonObject.get? d.attrs key = none := by
  have both : ∀ a b : Option Json, (a.toList ++ b.toList).length ≤ 1 ↔ (b.isSome → a = none) := by
    rintro (_ | a) (_ | b) <;> simp
  rw [JsonObject.keys_nodup_iff]
  simp only [filter_tagFields distinct]
  constructor
  · intro h key hk
    have short := h key
    rw [if_neg (by rintro rfl; simp at hk), if_neg (by rintro rfl; simp at hk), if_pos hk,
      List.length_map] at short
    exact (both ..).1 short
  · intro h key
    have flags : ∀ applies, (flagField key applies).length ≤ 1 := by
      rintro (_ | _) <;> simp [flagField]
    split
    · exact flags _
    · split
      · exact flags _
      · rw [List.length_map, both]
        split
        case isTrue hk => exact h key hk
        case isFalse => simp

end Tag

end Vue

/-- **Every attribute stands in a Vue tag once, but for `lang` and `src`.** A tag is read back as
its fields if no value holds a quote, and only then. They have no key twice if no typed field is an
attribute as well, and only then: the tag holds the attribute and behind it the typed field. -/
theorem vue_tag_attributes (d : Descriptor) (role : Role)
    (names : ∀ f ∈ d.attrs, Markup.IsName f.1.toList) (distinct : (d.attrs.map (·.1)).Nodup) :
    (∃ tag, Vue.writeBlock (some d) role = '<' :: (Vue.tagName d role ++ tag) ∧
      (Markup.readAttributes tag = some ((Vue.tagFields d).map .ofField, '>' :: '\n' ::
          (d.content.toList ++ '\n' :: '<' :: '/' :: (Vue.tagName d role ++ ['>']))) ↔
        ∀ f ∈ Vue.tagFields d, (Markup.Attribute.ofField f).Quotable)) ∧
    (((Vue.tagFields d).map (·.1)).Nodup ↔ ∀ key ∈ ["lang", "src"], (d.get? key).isSome →
      JsonObject.get? d.attrs key = none) ∧
    ∀ key ∈ ["lang", "src"], (Vue.tagFields d).filter (·.1 == key) =
      ((JsonObject.get? d.attrs key).toList ++ (d.get? key).toList).map (Prod.mk key) := by
  refine ⟨Vue.exists_tag names role, Vue.keys_tagFields_nodup_iff distinct, fun key hk => ?_⟩
  rw [Vue.filter_tagFields distinct, if_neg (by rintro rfl; simp at hk),
    if_neg (by rintro rfl; simp at hk), if_pos hk]

/-- A script whose language is known from its attributes and from the typed field: the tag can be
read, and the language stands in it twice. -/
theorem language_written_twice :
    let d : Descriptor :=
      { attrs := [("generics", .string "A<B>"), ("lang", .string "ts"), ("setup", .bool true)]
        lang := some "ts", content := "x" }
    let tag := " generics=\"A<B>\" lang=\"ts\" lang=\"ts\" setup>\nx\n</script>".toList
    (∀ f ∈ d.attrs, Markup.IsName f.1.toList) ∧ (d.attrs.map (·.1)).Nodup ∧
      Vue.writeBlock (some d) .script = "<script".toList ++ tag ∧
      Markup.readAttributes tag =
        some ((Vue.tagFields d).map .ofField, ">\nx\n</script>".toList) ∧
      (Vue.tagFields d).filter (·.1 == "lang") = [("lang", .string "ts"), ("lang", .string "ts")] ∧
      ¬((Vue.tagFields d).map (·.1)).Nodup := by
  intro d tag
  have names : ∀ f ∈ d.attrs, Markup.IsName f.1.toList := by decide
  have distinct : (d.attrs.map (·.1)).Nodup := by decide
  obtain ⟨⟨tag', written, read⟩, once, stands⟩ := vue_tag_attributes d .script names distinct
  have same : Vue.writeBlock (some d) .script = "<script".toList ++ tag := by decide
  obtain rfl : tag' = tag := by
    simpa [Vue.tagName, Role.tagName] using written.symm.trans same
  have back := read.2 (by decide)
  refine ⟨names, distinct, same, back.trans (by decide), stands "lang" (by simp), fun nodup => ?_⟩
  have absent := once.1 nodup "lang" (by simp) rfl
  cases absent

end ComponentEdit
