import ComponentEdit.Proofs.Markup.Attributes

/-!
# Attributes read as fields

A field of an object that is true or a string is written as one attribute and read back from it
(`field_ofField`). A row of them is read back in front of any text that an attribute can end at
(`readFields_inline`), as long as no string holds a quote: there is no way to write a quote
between quotes, so a string with one is never what is read.
-/

namespace ComponentEdit.Markup
set_option autoImplicit false

/-- The field that an attribute is read as: true for a bare name. -/
def Attribute.field (a : Attribute) : String × Json :=
  (.ofList a.name, match a.value with
    | none => .bool true
    | some v => .ofText v)

/-- Read attributes as the fields of an object. -/
def readFields (t : Text) : Option (JsonObject × Text) :=
  (readAttributes t).map fun (as, rest) => (as.map Attribute.field, rest)

/-- A field that an attribute can stand for. -/
structure IsEntry (f : String × Json) : Prop where
  name : IsName f.1.toList
  value : f.2 = .bool true ∨ ∃ s, f.2 = .string s

/-- The value of a field does not hold a quote. -/
def Quoteless (f : String × Json) : Prop := ∀ s, f.2 = .string s → '"' ∉ s.toList

section Reading
variable {f : String × Json} {fs : JsonObject} {as : List Attribute} {rest : Text}

theorem field_ofField (h : IsEntry f) : (Attribute.ofField f).field = f := by
  obtain ⟨key, v⟩ := f
  rcases h.value with rfl | ⟨s, rfl⟩ <;> simp [Attribute.field, Attribute.ofField, Json.ofText]

theorem quotable_ofField_iff (h : IsEntry f) : (Attribute.ofField f).Quotable ↔ Quoteless f := by
  obtain ⟨key, v⟩ := f
  rcases h.value with rfl | ⟨s, rfl⟩ <;>
    simp [Attribute.Quotable, Attribute.ofField, Quoteless]

theorem quoteless_field {a : Attribute} (h : a.Quotable) : Quoteless a.field := by
  rintro s same
  cases value : a.value with
  | none => simp [Attribute.field, value] at same
  | some v =>
    obtain rfl : String.ofList v = s := by simpa [Attribute.field, value, Json.ofText] using same
    simpa using h v value

/-- Attributes with blanks only between them are read like those behind blanks. -/
theorem readAttributes_inline (h : ∀ a ∈ as, IsName a.name ∧ a.Quotable)
    (ends : endsAttribute rest = true) : readAttributes (inline as ++ rest) =
      (readAttributes rest).map fun (others, rest) => (as ++ others, rest) := by
  cases as with
  | nil => simp [inline]
  | cons a as =>
    rw [← readAttributes_blank, ← List.cons_append, inline, blank_intercalate (by simp),
      ← spaced_eq, readAttributes_spaced h ends]

/-- Fields are read back in front of what an attribute can end at. -/
theorem readFields_inline (entries : ∀ f ∈ fs, IsEntry f) (quoteless : ∀ f ∈ fs, Quoteless f)
    (ends : endsAttribute rest = true) : readFields (inline (fs.map .ofField) ++ rest) =
      (readFields rest).map fun (others, rest) => (fs ++ others, rest) := by
  have readable : ∀ a ∈ fs.map Attribute.ofField, IsName a.name ∧ a.Quotable :=
    List.forall_mem_map.2 fun f hf =>
      ⟨(entries f hf).name, (quotable_ofField_iff (entries f hf)).2 (quoteless f hf)⟩
  have back : (fs.map Attribute.ofField).map Attribute.field = fs := by
    rw [List.map_map]
    exact (List.map_congr_left fun f hf => field_ofField (entries f hf)).trans (List.map_id fs)
  rw [readFields, readAttributes_inline readable ends, readFields, Option.map_map, Option.map_map]
  simp only [Function.comp_def, List.map_append, back]

/-- What is read holds no quote. -/
theorem quoteless_of_readFields {t : Text} (h : readFields t = some (fs, rest)) :
    ∀ f ∈ fs, Quoteless f := by
  obtain ⟨⟨as, left⟩, read, same⟩ := Option.map_eq_some_iff.1 h
  cases same
  exact List.forall_mem_map.2 fun a ha => quoteless_field (quotable_of_readAttributes read a ha)

end Reading

end ComponentEdit.Markup

namespace ComponentEdit

/-- **Attributes are read back, unless a value holds a quote.** The names and values that are
written, apart from the keys left out, are exactly those that are read, in order, and whatever an
attribute can end at may follow: none of the values reaches into it, ends before its quote, or adds
an attribute. A value with a quote is never read back. -/
theorem attributes_read_back_iff (attrs : JsonObject) (skip : List String)
    (entries : ∀ f ∈ attrs, Markup.IsEntry f) :
    let kept := attrs.filter fun f => !skip.contains f.1
    (Markup.readFields (Markup.writeAttributes attrs skip) = some (kept, []) ↔
      ∀ f ∈ kept, Markup.Quoteless f) ∧
    ((∀ f ∈ kept, Markup.Quoteless f) → ∀ rest, Markup.endsAttribute rest = true →
      Markup.readFields (Markup.writeAttributes attrs skip ++ rest) =
        (Markup.readFields rest).map fun (fs, rest) => (kept ++ fs, rest)) := by
  intro kept
  have keptEntries : ∀ f ∈ kept, Markup.IsEntry f := fun f hf => entries f (List.mem_filter.1 hf).1
  rw [Markup.writeAttributes_eq]
  have framed : (∀ f ∈ kept, Markup.Quoteless f) → ∀ rest, Markup.endsAttribute rest = true →
      Markup.readFields (Markup.inline (kept.map .ofField) ++ rest) =
        (Markup.readFields rest).map fun (fs, rest) => (kept ++ fs, rest) :=
    fun quoteless _ => Markup.readFields_inline keptEntries quoteless
  refine ⟨⟨Markup.quoteless_of_readFields, fun quoteless => ?_⟩, framed⟩
  have alone := framed quoteless [] rfl
  rw [List.append_nil] at alone
  rw [alone]
  simp [Markup.readFields, Markup.readAttributes]

/-- A value with a quote ends at it, and what follows it is read as an attribute of its own. -/
theorem quote_ends_value :
    let attrs : JsonObject := [("a", .string "x\" b=\"y")]
    (∀ f ∈ attrs, Markup.IsEntry f) ∧
      Markup.readFields (Markup.writeAttributes attrs []) =
        some ([("a", .string "x"), ("b", .string "y")], []) ∧
      Markup.readFields (Markup.writeAttributes attrs []) ≠ some (attrs, []) := by
  intro attrs
  let two : JsonObject := [("a", .string "x"), ("b", .string "y")]
  have same : Markup.writeAttributes attrs [] = Markup.inline (two.map .ofField) ++ [] := by decide
  have entries : ∀ f ∈ two, Markup.IsEntry f :=
    List.forall_mem_cons.2 ⟨⟨by decide, .inr ⟨"x", rfl⟩⟩,
      List.forall_mem_singleton.2 ⟨by decide, .inr ⟨"y", rfl⟩⟩⟩
  have quoteless : ∀ f ∈ two, Markup.Quoteless f :=
    List.forall_mem_cons.2 ⟨by rintro s ⟨⟩; decide,
      List.forall_mem_singleton.2 (by rintro s ⟨⟩; decide)⟩
  have read : Markup.readFields (Markup.writeAttributes attrs []) = some (two, []) := by
    rw [same, Markup.readFields_inline entries quoteless rfl]
    simp [Markup.readFields, Markup.readAttributes]
  refine ⟨List.forall_mem_singleton.2 ⟨by decide, .inr ⟨_, rfl⟩⟩, read, ?_⟩
  rw [read]
  simp [two, attrs]

/-- Blanks, the other quote and the end of a tag are no end of a value. -/
theorem framed_values_read_back :
    let attrs : JsonObject := [("title", .string "a ='b' >"), ("setup", .bool true),
      ("data-x", .string ""), ("hidden", .bool true)]
    let kept : JsonObject :=
      [("title", .string "a ='b' >"), ("data-x", .string ""), ("hidden", .bool true)]
    (∀ f ∈ attrs, Markup.IsEntry f) ∧ (∀ f ∈ kept, Markup.Quoteless f) ∧
      Markup.readFields (Markup.writeAttributes attrs ["setup"]) = some (kept, []) ∧
      Markup.readFields (Markup.writeAttributes attrs ["setup"] ++ ">x".toList) =
        some (kept, ">x".toList) := by
  intro attrs kept
  have entries : ∀ f ∈ attrs, Markup.IsEntry f := by
    have named : ∀ f ∈ attrs, Markup.IsName f.1.toList := by decide
    refine fun f hf => ⟨named f hf, ?_⟩
    simp only [attrs, List.mem_cons, List.not_mem_nil, or_false] at hf
    rcases hf with rfl | rfl | rfl | rfl <;> simp
  have quoteless : ∀ f ∈ kept, Markup.Quoteless f := by
    intro f hf s value
    simp only [kept, List.mem_cons, List.not_mem_nil, or_false] at hf
    rcases hf with rfl | rfl | rfl <;> cases value <;> decide
  obtain ⟨back, framed⟩ := attributes_read_back_iff attrs ["setup"] entries
  refine ⟨entries, quoteless, back.2 quoteless, (framed quoteless ">x".toList rfl).trans ?_⟩
  rw [Markup.readFields]
  simp [Markup.readAttributes_close, kept, attrs]

end ComponentEdit
