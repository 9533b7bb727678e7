import ComponentEdit.Json.Fields
import Mathlib.Data.List.Nodup

/-!
# The fields of JSON objects

What is found under a key after a field was set (`get?_insert`), in one row of fields behind another
(`get?_append`) and among fields that are written only when they are set (`get?_whenSet`), and when
the readers of fields find what was written. In a value without repeated keys (`Json.Distinct`) no
object at any depth has a key twice; setting a field keeps it so.
-/

namespace ComponentEdit
set_option autoImplicit false

namespace JsonObject

section Lookup
variable {o o' : JsonObject} {key other : String} {v w : Json}

@[simp] theorem get?_nil (key : String) : get? [] key = none := rfl

theorem get?_cons (f : String × Json) (o : JsonObject) (key : String) :
    get? (f :: o) key = if f.1 = key then some f.2 else get? o key := by
  by_cases same : f.1 = key <;> simp [get?, same]

theorem get?_append (o o' : JsonObject) (key : String) :
    get? (o ++ o') key = (get? o key).or (get? o' key) := by
  induction o with
  | nil => rfl
  | cons f o ih =>
    rw [List.cons_append, get?_cons, get?_cons, ih]
    split <;> rfl

theorem get?_eq_none_iff : get? o key = none ↔ ∀ f ∈ o, f.1 ≠ key := by
  simp [get?]

theorem mem_of_get? (h : get? o key = some v) : (key, v) ∈ o := by
  induction o with
  | nil => cases h
  | cons f o ih =>
    rw [get?_cons] at h
    split at h
    case isTrue same =>
      obtain rfl : f.2 = v := Option.some.inj h
      rw [← same]
      exact List.mem_cons_self
    case isFalse => exact List.mem_cons_of_mem _ (ih h)

theorem hasKey_iff : hasKey o key = true ↔ key ∈ o.map (·.1) := by
  simp [hasKey]

theorem hasKey_eq_false_iff : hasKey o key = false ↔ key ∉ o.map (·.1) := by
  rw [← hasKey_iff, Bool.not_eq_true]

/-- Where every key is there once, the fields with a key are those that are found under it. -/
theorem filter_key (keys : (o.map (·.1)).Nodup) (key : String) :
    o.filter (·.1 == key) = (get? o key).toList.map (Prod.mk key) := by
  induction o with
  | nil => rfl
  | cons f o ih =>
    rw [List.map_cons, List.nodup_cons] at keys
    rw [List.filter_cons, get?_cons, ih keys.2]
    by_cases here : f.1 = key
    · have last : get? o key = none := get?_eq_none_iff.2 fun g hg same =>
        keys.1 (List.mem_map.2 ⟨g, hg, same.trans here.symm⟩)
      rw [if_pos (beq_iff_eq.2 here), if_pos here, last, ← here]
      rfl
    · rw [if_neg (by simpa using here), if_neg here]

/-- A key is there once if no key has more than one field. -/
theorem keys_nodup_iff : (o.map (·.1)).Nodup ↔ ∀ key, (o.filter (·.1 == key)).length ≤ 1 := by
  rw [List.nodup_iff_count_le_one]
  refine forall_congr' fun key => ?_
  rw [List.count, List.countP_map, List.countP_eq_length_filter]
  rfl

/-- A field that is written when it is set is found under its key. -/
theorem get?_whenSet {α : Type} (key other : String) (value : Option α) (write : α → Json) :
    get? (whenSet key value write) other = if key = other then value.map write else none := by
  cases value with
  | none => simp [whenSet]
  | some a => rw [whenSet, get?_cons, get?_nil, Option.map_some]

theorem filter_whenSet {α : Type} (key other : String) (value : Option α) (write : α → Json) :
    (whenSet key value write).filter (·.1 == other) =
      if key = other then (value.map write).toList.map (Prod.mk key) else [] := by
  cases value <;> simp [whenSet, List.filter_cons]

end Lookup

section Insert
variable {o : JsonObject} {key other : String} {v w : Json}

theorem insert_of_hasKey (h : hasKey o key = true) :
    insert o key v = o.map fun f => if f.1 = key then (key, v) else f := by
  simp [insert, h]

theorem insert_of_fresh (h : hasKey o key = false) : insert o key v = o ++ [(key, v)] := by
  simp [insert, h]

/-- A field that is set is in its place or at the end. -/
theorem keys_insert (o : JsonObject) (key : String) (v : Json) :
    (insert o key v).map (·.1) =
      if key ∈ o.map (·.1) then o.map (·.1) else o.map (·.1) ++ [key] := by
  split
  case isTrue h =>
    rw [insert_of_hasKey (hasKey_iff.2 h), List.map_map]
    refine List.map_congr_left fun f _ => ?_
    simp only [Function.comp_apply]
    split <;> simp_all
  case isFalse h =>
    rw [insert_of_fresh (hasKey_eq_false_iff.2 h), List.map_append]
    rfl

theorem mem_insert {f : String × Json} (h : f ∈ insert o key v) : f = (key, v) ∨ f ∈ o := by
  unfold insert at h
  split at h
  · obtain ⟨g, hg, rfl⟩ := List.mem_map.1 h
    split
    · exact .inl rfl
    · exact .inr hg
  · rcases List.mem_append.1 h with h | h
    · exact .inr h
    · exact .inl (List.mem_singleton.1 h)

theorem get?_replace (o : JsonObject) (key other : String) (v : Json) :
    get? (o.map fun f => if f.1 = key then (key, v) else f) other =
      if other = key then (get? o key).map fun _ => v else get? o other := by
  induction o with
  | nil => simp
  | cons f o ih =>
    rw [List.map_cons, get?_cons, get?_cons, get?_cons, ih]
    by_cases here : f.1 = key <;> by_cases same : other = key <;> grind

/-- After a field was set, its key holds the value and the other keys what they held. -/
theorem get?_insert (o : JsonObject) (key other : String) (v : Json) :
    get? (insert o key v) other = if other = key then some v else get? o other := by
  cases present : hasKey o key with
  | true =>
    rw [insert_of_hasKey present, get?_replace]
    have found : get? o key ≠ none := by
      obtain ⟨f, hf, same⟩ := List.mem_map.1 (hasKey_iff.1 present)
      exact fun none => get?_eq_none_iff.1 none f hf same
    obtain ⟨w, found⟩ := Option.ne_none_iff_exists'.1 found
    rw [found, Option.map_some]
  | false =>
    have fresh : get? o key = none := get?_eq_none_iff.2 fun f hf same =>
      hasKey_eq_false_iff.1 present (List.mem_map.2 ⟨f, hf, same⟩)
    rw [insert_of_fresh present, get?_append, get?_cons, get?_nil]
    by_cases same : other = key
    · subst same
      simp [fresh]
    · rw [if_neg (Ne.symm same), if_neg same, Option.or_none]

/-- Setting a key to what it holds changes nothing. -/
theorem insert_self (keys : (o.map (·.1)).Nodup) (h : get? o key = some v) : insert o key v = o := by
  have present := mem_of_get? h
  rw [insert_of_hasKey (hasKey_iff.2 (List.mem_map.2 ⟨_, present, rfl⟩))]
  refine (List.map_congr_left fun f hf => ?_).trans (List.map_id o)
  split
  case isTrue same => exact (List.inj_on_of_nodup_map keys hf present same).symm
  case isFalse => rfl

end Insert

section Fields
variable {α : Type} {o : JsonObject} {key : String} {read : Json → Option α} {a : α}

theorem field_eq_some_iff : field o key read = some a ↔ ∃ v, get? o key = some v ∧ read v = some a :=
  Option.bind_eq_some_iff

/-- A field that was written when it was set is read as it was. -/
theorem field?_of_get? {value : Option α} {write : α → Json} (found : get? o key = value.map write)
    (reads : ∀ a, Json.nullable read (write a) = some (some a)) :
    field? o key read = some value := by
  cases value with
  | none => simp [field?, found]
  | some a => simp [field?, found, reads]

end Fields

end JsonObject

namespace Json

section Readers
variable {v : Json}

theorem string?_eq_some_iff {s : String} : v.string? = some s ↔ v = .string s := by
  cases v <;> simp [string?]

theorem bool?_eq_some_iff {b : Bool} : v.bool? = some b ↔ v = .bool b := by
  cases v <;> simp [bool?]

theorem object?_eq_some_iff {o : JsonObject} : v.object? = some o ↔ v = .object o := by
  cases v <;> simp [object?]

theorem text?_eq_some_iff {t : List Char} : v.text? = some t ↔ v = .ofText t := by
  rw [text?, Option.map_eq_some_iff, ofText]
  constructor
  · rintro ⟨s, hs, rfl⟩
    rw [String.ofList_toList]
    exact string?_eq_some_iff.1 hs
  · rintro rfl
    exact ⟨_, rfl, String.toList_ofList⟩

theorem natural?_eq_some_iff {n : Nat} : v.natural? = some n ↔ v = .nat n := by
  constructor
  · intro h
    unfold natural? at h
    split at h
    · cases h
      rfl
    · cases h
  · rintro rfl
    rfl

theorem nullable_of_ne {α : Type} (read : Json → Option α) (ne : v ≠ .null) :
    nullable read v = (read v).map some := by
  cases v with
  | null => exact absurd rfl ne
  | _ => rfl

/-- What may be unset is read from null or from what was written. -/
theorem nullable_eq_some_iff {α : Type} {read : Json → Option α} {write : α → Json}
    (reads : ∀ v a, read v = some a ↔ v = write a) (notNull : ∀ a, write a ≠ .null)
    {value : Option α} : nullable read v = some value ↔ v = .ofOption write value := by
  by_cases unset : v = .null
  · subst unset
    cases value with
    | none => simp [nullable, ofOption]
    | some a => simpa [nullable, ofOption] using (notNull a).symm
  · rw [nullable_of_ne read unset]
    cases value with
    | none => simpa [ofOption] using unset
    | some a => simp [ofOption, reads]

end Readers

/-- A value whose objects, at every depth, have every key once. -/
inductive Distinct : Json → Prop where
  | null : Distinct .null
  | bool (b : Bool) : Distinct (.bool b)
  | number (n : JsonNumber) : Distinct (.number n)
  | string (s : String) : Distinct (.string s)
  | array {items : List Json} (each : ∀ v ∈ items, Distinct v) : Distinct (.array items)
  | object {fields : List (String × Json)} (keys : (fields.map (·.1)).Nodup)
      (each : ∀ f ∈ fields, Distinct f.2) : Distinct (.object fields)

namespace Distinct
variable {o o' : JsonObject} {key : String} {v : Json}

theorem keys_nodup (h : Distinct (.object o)) : (o.map (·.1)).Nodup := by
  cases h with
  | object keys each => exact keys

theorem of_mem (h : Distinct (.object o)) {f : String × Json} (hf : f ∈ o) : f.2.Distinct := by
  cases h with
  | object keys each => exact each f hf

theorem of_get? (h : Distinct (.object o)) (found : JsonObject.get? o key = some v) : v.Distinct :=
  h.of_mem (JsonObject.mem_of_get? found)

theorem nil : Distinct (.object []) := .object List.nodup_nil fun _ h => absurd h List.not_mem_nil

theorem singleton (key : String) (h : v.Distinct) : Distinct (.object [(key, v)]) :=
  .object (List.nodup_singleton _) (List.forall_mem_singleton.2 h)

/-- Some of the fields of an object. -/
theorem sublist (h : Distinct (.object o)) (part : o'.Sublist o) : Distinct (.object o') :=
  .object (h.keys_nodup.sublist (part.map _)) fun _ hf => h.of_mem (part.subset hf)

theorem insert (h : Distinct (.object o)) (key : String) (hv : v.Distinct) :
    Distinct (.object (JsonObject.insert o key v)) := by
  refine .object ?_ fun f hf => ?_
  · rw [JsonObject.keys_insert]
    split
    case isTrue => exact h.keys_nodup
    case isFalse fresh => exact List.concat_eq_append ▸ h.keys_nodup.concat fresh
  · rcases JsonObject.mem_insert hf with rfl | hf
    · exact hv
    · exact h.of_mem hf

theorem insertAll (h : Distinct (.object o)) {fields : List (String × Json)}
    (each : ∀ f ∈ fields, f.2.Distinct) : Distinct (.object (JsonObject.insertAll o fields)) := by
  induction fields generalizing o with
  | nil => exact h
  | cons f fields ih =>
    rw [List.forall_mem_cons] at each
    exact ih (h.insert f.1 each.1) each.2

end Distinct

end Json

namespace JsonObject

/-- Fields under some of a row of keys, in their order, with values without repeated keys. -/
structure Among (o : JsonObject) (keys : List String) : Prop where
  keys : (o.map (·.1)).Sublist keys
  each : ∀ f ∈ o, f.2.Distinct

namespace Among
variable {o o' : JsonObject} {keys keys' : List String} {key : String} {v : Json}

theorem nil (keys : List String) : Among [] keys :=
  ⟨List.nil_sublist _, fun _ h => absurd h List.not_mem_nil⟩

theorem cons (key : String) (hv : v.Distinct) (h : Among o keys) :
    Among ((key, v) :: o) (key :: keys) :=
  ⟨h.keys.cons_cons key, List.forall_mem_cons.2 ⟨hv, h.each⟩⟩

theorem one (key : String) (hv : v.Distinct) : Among [(key, v)] [key] := cons key hv (nil [])

theorem append (h : Among o keys) (h' : Among o' keys') : Among (o ++ o') (keys ++ keys') := by
  refine ⟨?_, List.forall_mem_append.2 ⟨h.each, h'.each⟩⟩
  rw [List.map_append]
  exact h.keys.append h'.keys

theorem whenSet {α : Type} (key : String) (value : Option α) {write : α → Json}
    (each : ∀ a, (write a).Distinct) : Among (whenSet key value write) [key] := by
  cases value with
  | none => exact nil _
  | some a => exact one key (each a)

/-- An object that is left out when it is empty. -/
theorem whenFilled (key : String) (h : (Json.object o).Distinct) :
    Among (if o.isEmpty then [] else [(key, .object o)]) [key] := by
  split
  · exact nil _
  · exact one key h

theorem distinct (h : Among o keys) (once : keys.Nodup) : (Json.object o).Distinct :=
  .object (once.sublist h.keys) h.each

end Among

end JsonObject

end ComponentEdit
