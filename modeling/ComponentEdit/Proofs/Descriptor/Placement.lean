import ComponentEdit.Descriptor.Placement
import ComponentEdit.Proofs.Json.Objects

/-!
# What values denote a placement

A reader takes a value exactly if it is one of the forms of what is read: for positions and
locations an object with their fields, among others that do not matter, or the array of their
values; for offsets an object with both of them. A value is a form of one placement at most, and a
placement is written in one of its forms, so it is read back in the shape that it had.
-/

namespace ComponentEdit
set_option autoImplicit false

/-- A record with three keys is an object, or an array of three values. -/
theorem Json.record?_three {first second third : String} {v : Json} {o : JsonObject} :
    v.record? [first, second, third] = some o ↔ v = .object o ∨
      ∃ a b c, v = .array [a, b, c] ∧ o = [(first, a), (second, b), (third, c)] := by
  constructor
  · intro h
    cases v with
    | object fields => exact .inl (congrArg _ (Option.some.inj h))
    | array items =>
      rw [record?, Option.ite_none_right_eq_some] at h
      obtain ⟨a, b, c, rfl⟩ := List.length_eq_three.1 h.1
      exact .inr ⟨a, b, c, rfl, (Option.some.inj h.2).symm⟩
    | _ => cases h
  · rintro (rfl | ⟨a, b, c, rfl, rfl⟩) <;> rfl

namespace Position
variable {p : Position} {v : Json}

/-- The forms of a position. -/
inductive HasForm (p : Position) : Json → Prop where
  | fields {o : JsonObject} (offset : JsonObject.get? o "offset" = some (.nat p.offset))
      (line : JsonObject.get? o "line" = some (.nat p.line))
      (column : JsonObject.get? o "column" = some (.nat p.column)) : HasForm p (.object o)
  | items : HasForm p (.array [.nat p.offset, .nat p.line, .nat p.column])

theorem ofJson?_eq_some_iff : ofJson? v = some p ↔ p.HasForm v := by
  simp only [ofJson?, Option.bind_eq_bind, Option.bind_eq_some_iff, Json.record?_three,
    JsonObject.field_eq_some_iff, Json.natural?_eq_some_iff]
  constructor
  · rintro ⟨o, form, _, ⟨_, offset, rfl⟩, _, ⟨_, line, rfl⟩, _, ⟨_, column, rfl⟩, ⟨⟩⟩
    rcases form with rfl | ⟨a, b, c, rfl, rfl⟩
    · exact .fields offset line column
    · simp only [JsonObject.get?_cons, String.reduceEq, if_true, if_false,
        Option.some.injEq] at offset line column
      rw [offset, line, column]
      exact .items
  · rintro (⟨offset, line, column⟩ | _)
    · exact ⟨_, .inl rfl, _, ⟨_, offset, rfl⟩, _, ⟨_, line, rfl⟩, _, ⟨_, column, rfl⟩, rfl⟩
    · exact ⟨_, .inr ⟨_, _, _, rfl, rfl⟩, _, ⟨_, rfl, rfl⟩, _, ⟨_, rfl, rfl⟩, _, ⟨_, rfl, rfl⟩, rfl⟩

theorem hasForm_toJson (p : Position) : p.HasForm p.toJson := .fields rfl rfl rfl

theorem not_hasForm_nat (p : Position) (n : Nat) : ¬p.HasForm (.nat n) := nofun

end Position

namespace Location
variable {l : Location} {v : Json}

/-- The forms of a location. -/
inductive HasForm (l : Location) : Json → Prop where
  | fields {o : JsonObject} {start stop : Json} (hasStart : JsonObject.get? o "start" = some start)
      (hasStop : JsonObject.get? o "end" = some stop)
      (source : JsonObject.get? o "source" = some (.ofText l.source))
      (startForm : l.start.HasForm start) (stopForm : l.stop.HasForm stop) : HasForm l (.object o)
  | items {start stop : Json} (startForm : l.start.HasForm start) (stopForm : l.stop.HasForm stop) :
      HasForm l (.array [start, stop, .ofText l.source])

theorem ofJson?_eq_some_iff : ofJson? v = some l ↔ l.HasForm v := by
  simp only [ofJson?, Option.bind_eq_bind, Option.bind_eq_some_iff, Json.record?_three,
    JsonObject.field_eq_some_iff, Json.text?_eq_some_iff, Position.ofJson?_eq_some_iff]
  constructor
  · rintro ⟨o, form, start, ⟨_, hasStart, startForm⟩, stop, ⟨_, hasStop, stopForm⟩, _,
      ⟨_, source, rfl⟩, ⟨⟩⟩
    rcases form with rfl | ⟨a, b, c, rfl, rfl⟩
    · exact .fields hasStart hasStop source startForm stopForm
    · simp only [JsonObject.get?_cons, String.reduceEq, if_true, if_false,
        Option.some.injEq] at hasStart hasStop source
      rw [hasStart, hasStop, source]
      exact .items startForm stopForm
  · rintro (⟨hasStart, hasStop, source, startForm, stopForm⟩ | ⟨startForm, stopForm⟩)
    · exact ⟨_, .inl rfl, _, ⟨_, hasStart, startForm⟩, _, ⟨_, hasStop, stopForm⟩, _,
        ⟨_, source, rfl⟩, rfl⟩
    · exact ⟨_, .inr ⟨_, _, _, rfl, rfl⟩, _, ⟨_, rfl, startForm⟩, _, ⟨_, rfl, stopForm⟩, _,
        ⟨_, rfl, rfl⟩, rfl⟩

theorem hasForm_toJson (l : Location) : l.HasForm l.toJson :=
  .fields rfl rfl rfl l.start.hasForm_toJson l.stop.hasForm_toJson

end Location

theorem Span.ofJson?_eq_some_iff {v : Json} {s : Span} : ofJson? v = some s ↔
    ∃ o, v = .object o ∧ JsonObject.get? o "start" = some (.nat s.start) ∧
      JsonObject.get? o "end" = some (.nat s.stop) := by
  simp only [ofJson?, Option.bind_eq_bind, Option.bind_eq_some_iff, Json.object?_eq_some_iff,
    JsonObject.field_eq_some_iff, Json.natural?_eq_some_iff]
  constructor
  · rintro ⟨o, rfl, _, ⟨_, start, rfl⟩, _, ⟨_, stop, rfl⟩, ⟨⟩⟩
    exact ⟨o, rfl, start, stop⟩
  · rintro ⟨o, rfl, start, stop⟩
    exact ⟨o, rfl, _, ⟨_, start, rfl⟩, _, ⟨_, stop, rfl⟩, rfl⟩

namespace Placement
variable {p : Placement} {v : Json}

/-- The forms of a placement: those of a location, or an object with a pair of offsets. -/
inductive HasForm : Placement → Json → Prop where
  | location {l : Location} {v : Json} (form : l.HasForm v) : HasForm (.location l) v
  | offsets {s : Span} {o : JsonObject} (start : JsonObject.get? o "start" = some (.nat s.start))
      (stop : JsonObject.get? o "end" = some (.nat s.stop)) : HasForm (.offsets s) (.object o)

/-- What holds a number for its start is no location. -/
theorem location_of_nat_start {o : JsonObject} {n : Nat}
    (start : JsonObject.get? o "start" = some (.nat n)) : Location.ofJson? (.object o) = none := by
  cases read : Location.ofJson? (.object o) with
  | none => rfl
  | some l =>
    cases Location.ofJson?_eq_some_iff.1 read with
    | fields hasStart hasStop source startForm stopForm =>
      rw [start] at hasStart
      rw [← Option.some.inj hasStart] at startForm
      exact absurd startForm (l.start.not_hasForm_nat n)

theorem ofJson?_eq_some_iff : ofJson? v = some p ↔ p.HasForm v := by
  constructor
  · intro h
    rw [ofJson?] at h
    split at h
    case h_1 l read =>
      obtain rfl : .location l = p := Option.some.inj h
      exact .location (Location.ofJson?_eq_some_iff.1 read)
    case h_2 =>
      obtain ⟨s, read, rfl⟩ := Option.map_eq_some_iff.1 h
      obtain ⟨o, rfl, start, stop⟩ := Span.ofJson?_eq_some_iff.1 read
      exact .offsets start stop
  · rintro (form | ⟨start, stop⟩)
    · rw [ofJson?, Location.ofJson?_eq_some_iff.2 form]
    · rw [ofJson?, location_of_nat_start start,
        Span.ofJson?_eq_some_iff.2 ⟨_, rfl, start, stop⟩]
      rfl

/-- What is written of a placement has its shape. -/
theorem hasForm_toJson (p : Placement) : p.HasForm p.toJson := by
  cases p with
  | location l => exact .location l.hasForm_toJson
  | offsets s => exact .offsets rfl rfl

theorem not_hasForm_null (p : Placement) : ¬p.HasForm .null := by
  rintro (form | _)
  exact nomatch form

theorem nullable_ofJson?_iff {p : Option Placement} : Json.nullable ofJson? v = some p ↔
    (v = .null ∧ none = p) ∨ ∃ q : Placement, q.HasForm v ∧ some q = p := by
  by_cases unset : v = .null
  · subst unset
    simp [Json.nullable, not_hasForm_null]
  · rw [Json.nullable_of_ne _ unset, Option.map_eq_some_iff]
    simp only [unset, false_and, false_or, ofJson?_eq_some_iff]

end Placement

end ComponentEdit
