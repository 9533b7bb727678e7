import ComponentEdit.Descriptor.Basic
import ComponentEdit.Error
import ComponentEdit.Proofs.Descriptor.Placement

/-!
# The fields of a descriptor by name

`Descriptor.Writes` says what a value does to a descriptor when it is written to a field, and
`Descriptor.Keeps` what the field holds of it afterwards; a value that a field keeps nothing of has
not its shape. All laws of reading and writing follow from the first of the two
(`set_eq_ok_iff`): a write is seen by the reads of its own key only, what was read can be written
back without effect, and the written form of the descriptor holds what reading tells.
-/

namespace ComponentEdit
set_option autoImplicit false

namespace Descriptor
variable {d d' : Descriptor} {key : String} {v w : Json} {w? : Option Json}

/-- What a value does to a descriptor that takes it for a field. -/
inductive Writes (d : Descriptor) : String → Json → Descriptor → Prop where
  | kind (s : Option String) : Writes d "type" (.ofOption .string s) { d with kind := s }
  | attrs (o : JsonObject) : Writes d "attrs" (.object o) { d with attrs := o }
  | lang (s : Option String) : Writes d "lang" (.ofOption .string s) { d with lang := s }
  | isScoped (b : Option Bool) : Writes d "scoped" (.ofOption .bool b) { d with isScoped := b }
  | src (s : Option String) : Writes d "src" (.ofOption .string s) { d with src := s }
  | content (s : String) : Writes d "content" (.string s) { d with content := s }
  | unplaced : Writes d "loc" .null { d with placement := none }
  | placed {v : Json} {p : Placement} (form : p.HasForm v) :
      Writes d "loc" v { d with placement := some p }
  | extra {key : String} {v : Json} (untyped : key ∉ typedKeys) :
      Writes d key v { d with extra := JsonObject.insert d.extra key v }

/-- What a field holds of a value that has its shape: a placement in the shape it was given in,
without what is unknown, nothing of null where a field may be unset, and all else as it is. -/
inductive Keeps : String → Json → Option Json → Prop where
  | text {key : String} (s : String) (field : key ∈ ["type", "lang", "src", "content"]) :
      Keeps key (.string s) (some (.string s))
  | flag (b : Bool) : Keeps "scoped" (.bool b) (some (.bool b))
  | attributes (o : JsonObject) : Keeps "attrs" (.object o) (some (.object o))
  | place {v : Json} {p : Placement} (form : p.HasForm v) : Keeps "loc" v (some p.toJson)
  | nothing {key : String} (field : key ∈ ["type", "lang", "scoped", "src", "loc"]) :
      Keeps key .null none
  | extra {key : String} {v : Json} (untyped : key ∉ typedKeys) : Keeps key v (some v)

section Untyped

theorem get?_of_untyped (d : Descriptor) (untyped : key ∉ typedKeys) :
    d.get? key = JsonObject.get? d.extra key := by
  simp only [typedKeys, List.mem_cons, List.not_mem_nil, or_false, not_or] at untyped
  simp only [get?, untyped, if_false]

theorem set_of_untyped (d : Descriptor) (untyped : key ∉ typedKeys) (v : Json) :
    d.set key v = .ok { d with extra := JsonObject.insert d.extra key v } := by
  simp only [typedKeys, List.mem_cons, List.not_mem_nil, or_false, not_or] at untyped
  simp only [set, untyped, if_false]

end Untyped

section Writing

theorem bind_pure_eq_ok_iff {α β : Type} {x : Except Error α} {f : α → β} {b : β} :
    (x >>= fun a => pure (f a)) = .ok b ↔ ∃ a, x = .ok a ∧ f a = b := by
  cases x <;> simp [bind, Except.bind, pure, Except.pure]

theorem typed_eq_ok_iff {α : Type} {expected : String} {read : Json → Option α} {a : α} :
    typed key expected read v = .ok a ↔ read v = some a := by
  unfold typed
  split <;> simp_all

theorem typedPlacement_eq_ok_iff {p : Option Placement} :
    typedPlacement v = .ok p ↔ Json.nullable Placement.ofJson? v = some p := by
  unfold typedPlacement
  split <;> simp_all

theorem nullable_string?_iff {s : Option String} :
    Json.nullable Json.string? v = some s ↔ v = .ofOption .string s :=
  Json.nullable_eq_some_iff (fun _ _ => Json.string?_eq_some_iff) (fun _ => nofun)

theorem nullable_bool?_iff {b : Option Bool} :
    Json.nullable Json.bool? v = some b ↔ v = .ofOption .bool b :=
  Json.nullable_eq_some_iff (fun _ _ => Json.bool?_eq_some_iff) (fun _ => nofun)

/-- A field takes exactly the values that do something to it. -/
theorem set_eq_ok_iff : d.set key v = .ok d' ↔ d.Writes key v d' := by
  constructor
  · intro h
    by_cases typed : key ∈ typedKeys
    · simp only [typedKeys, List.mem_cons, List.not_mem_nil, or_false] at typed
      rcases typed with rfl | rfl | rfl | rfl | rfl | rfl | rfl <;>
        simp only [set, String.reduceEq, if_true, if_false, bind_pure_eq_ok_iff, typed_eq_ok_iff,
          typedPlacement_eq_ok_iff, nullable_string?_iff, nullable_bool?_iff,
          Placement.nullable_ofJson?_iff, Json.object?_eq_some_iff, Json.string?_eq_some_iff] at h
      · obtain ⟨s, rfl, rfl⟩ := h
        exact .kind s
      · obtain ⟨o, rfl, rfl⟩ := h
        exact .attrs o
      · obtain ⟨s, rfl, rfl⟩ := h
        exact .lang s
      · obtain ⟨b, rfl, rfl⟩ := h
        exact .isScoped b
      · obtain ⟨s, rfl, rfl⟩ := h
        exact .src s
      · obtain ⟨s, rfl, rfl⟩ := h
        exact .content s
      · obtain ⟨p, ⟨rfl, rfl⟩ | ⟨q, form, rfl⟩, rfl⟩ := h
        · exact .unplaced
        · exact .placed form
    · rw [set_of_untyped d typed, Except.ok.injEq] at h
      exact h ▸ .extra typed
  · intro h
    cases h with
    | extra untyped => exact set_of_untyped d untyped v
    | _ => 
      simp only [set, String.reduceEq, if_true, if_false, bind_pure_eq_ok_iff, typed_eq_ok_iff,
          typedPlacement_eq_ok_iff, nullable_string?_iff, nullable_bool?_iff,
          Placement.nullable_ofJson?_iff, Json.object?_eq_some_iff, Json.string?_eq_some_iff]
      grind

theorem bind_pure_eq_error_iff {α β : Type} {x : Except Error α} {f : α → β} {e : Error} :
    (x >>= fun a => pure (f a)) = .error e ↔ x = .error e := by
  cases x <;> simp [bind, Except.bind, pure, Except.pure]

theorem typed_eq_error {α : Type} {expected : String} {read : Json → Option α} {e : Error}
    (h : typed key expected read v = .error e) : ∃ reason, e = .invalidProperty key reason := by
  unfold typed at h
  split at h
  · cases h
  · exact ⟨_, (Except.error.inj h).symm⟩

theorem typedPlacement_eq_error {e : Error} (h : typedPlacement v = .error e) :
    ∃ reason, e = .invalidProperty "loc" reason := by
  unfold typedPlacement at h
  split at h
  · cases h
  · exact ⟨_, (Except.error.inj h).symm⟩

/-- A refusal names the field. -/
theorem set_eq_error {e : Error} (h : d.set key v = .error e) :
    ∃ reason, e = .invalidProperty key reason := by
  by_cases typed : key ∈ typedKeys
  · simp only [typedKeys, List.mem_cons, List.not_mem_nil, or_false] at typed
    rcases typed with rfl | rfl | rfl | rfl | rfl | rfl | rfl <;>
      simp only [set, String.reduceEq, if_true, if_false, bind_pure_eq_error_iff] at h
    case inr.inr.inr.inr.inr.inr => exact typedPlacement_eq_error h
    all_goals exact typed_eq_error h
  · rw [set_of_untyped d typed] at h
    cases h

end Writing

section Reading

theorem keeps_optional_text (s : Option String) (field : key ∈ ["type", "lang", "src"]) :
    Keeps key (.ofOption .string s) (s.map .string) := by
  have optional : ["type", "lang", "src"] ⊆ ["type", "lang", "scoped", "src", "loc"] := by decide
  have text : ["type", "lang", "src"] ⊆ ["type", "lang", "src", "content"] := by decide
  cases s with
  | none => exact .nothing (optional field)
  | some s => exact .text s (text field)

/-- What a field holds after a write. -/
theorem keeps_of_writes (h : d.Writes key v d') : Keeps key v (d'.get? key) := by
  cases h with
  | kind s => exact keeps_optional_text s (by decide)
  | attrs o => exact .attributes o
  | lang s => exact keeps_optional_text s (by decide)
  | isScoped b =>
    cases b with
    | none => exact .nothing (by decide)
    | some b => exact .flag b
  | src s => exact keeps_optional_text s (by decide)
  | content s => exact .text s (by decide)
  | unplaced => exact .nothing (by decide)
  | placed form => exact .place form
  | extra untyped =>
    rw [get?_of_untyped _ untyped, JsonObject.get?_insert, if_pos rfl]
    exact .extra untyped

/-- Other fields hold after a write what they held before. -/
theorem get?_of_writes_of_ne (h : d.Writes key v d') {other : String} (ne : other ≠ key) :
    d'.get? other = d.get? other := by
  cases h with
  | extra untyped => simp only [get?, JsonObject.get?_insert, ne, if_false]
  | _ => simp only [get?, ne, if_false]

/-- What a field can hold it does hold after a write. -/
theorem exists_writes (h : Keeps key v w?) : ∃ d', d.Writes key v d' ∧ d'.get? key = w? := by
  cases h with
  | text s field => 
    simp only [List.mem_cons, List.not_mem_nil, or_false] at field
    rcases field with rfl | rfl | rfl | rfl
    · exact ⟨_, .kind (some s), rfl⟩
    · exact ⟨_, .lang (some s), rfl⟩
    · exact ⟨_, .src (some s), rfl⟩
    · exact ⟨_, .content s, rfl⟩
  | flag b => exact ⟨_, .isScoped (some b), rfl⟩
  | attributes o => exact ⟨_, .attrs o, rfl⟩
  | place form => exact ⟨_, .placed form, rfl⟩
  | nothing field =>
    simp only [List.mem_cons, List.not_mem_nil, or_false] at field
    rcases field with rfl | rfl | rfl | rfl | rfl
    · exact ⟨_, .kind none, rfl⟩
    · exact ⟨_, .lang none, rfl⟩
    · exact ⟨_, .isScoped none, rfl⟩
    · exact ⟨_, .src none, rfl⟩
    · exact ⟨_, .unplaced, rfl⟩
  | extra untyped =>
    refine ⟨_, .extra untyped, ?_⟩
    rw [get?_of_untyped _ untyped, JsonObject.get?_insert, if_pos rfl]

/-- What was read from a field can be written back without effect. -/
theorem set_of_get? (keys : (d.extra.map (·.1)).Nodup) (h : d.get? key = some w) :
    d.set key w = .ok d := by
  rw [set_eq_ok_iff]
  by_cases typed : key ∈ typedKeys
  · simp only [typedKeys, List.mem_cons, List.not_mem_nil, or_false] at typed
    rcases typed with rfl | rfl | rfl | rfl | rfl | rfl | rfl <;>
      simp only [get?, String.reduceEq, if_true, if_false, Option.map_eq_some_iff,
        Option.some.injEq] at h
    · obtain ⟨s, hs, rfl⟩ := h
      change d.Writes "type" (.ofOption .string (some s)) d
      rw [← hs]
      exact .kind d.kind
    · subst h
      exact .attrs d.attrs
    · obtain ⟨s, hs, rfl⟩ := h
      change d.Writes "lang" (.ofOption .string (some s)) d
      rw [← hs]
      exact .lang d.lang
    · obtain ⟨b, hb, rfl⟩ := h
      change d.Writes "scoped" (.ofOption .bool (some b)) d
      rw [← hb]
      exact .isScoped d.isScoped
    · obtain ⟨s, hs, rfl⟩ := h
      change d.Writes "src" (.ofOption .string (some s)) d
      rw [← hs]
      exact .src d.src
    · subst h
      exact .content d.content
    · obtain ⟨p, hp, rfl⟩ := h
      have same : { d with placement := some p } = d := by rw [← hp]
      have writes : d.Writes "loc" p.toJson _ := .placed p.hasForm_toJson
      rwa [same] at writes
  · rw [get?_of_untyped d typed] at h
    have writes : d.Writes key w _ := .extra typed
    rwa [JsonObject.insert_self keys h] at writes

theorem get?_attrsField (attrs : JsonObject) (other : String) :
    JsonObject.get? (if attrs.isEmpty then [] else [("attrs", .object attrs)]) other =
      if "attrs" = other then if attrs.isEmpty then none else some (.object attrs) else none := by
  cases attrs with
  | nil => simp
  | cons f fields => rw [List.isEmpty_cons, if_neg Bool.false_ne_true, JsonObject.get?_cons]; rfl

/-- The written form holds under every key what reading tells, except that it has no empty
attributes. -/
theorem get?_toFields (untyped : ∀ f ∈ d.extra, f.1 ∉ typedKeys) (key : String) :
    JsonObject.get? d.toFields key =
      if key = "attrs" ∧ d.attrs.isEmpty then none else d.get? key := by
  simp only [toFields, JsonObject.get?_append, JsonObject.get?_whenSet, get?_attrsField,
    JsonObject.get?_cons, JsonObject.get?_nil]
  by_cases typed : key ∈ typedKeys
  · have free : JsonObject.get? d.extra key = none :=
      JsonObject.get?_eq_none_iff.2 fun f hf same => untyped f hf (same ▸ typed)
    simp only [typedKeys, List.mem_cons, List.not_mem_nil, or_false] at typed
    rcases typed with rfl | rfl | rfl | rfl | rfl | rfl | rfl <;> simp [get?, free]
  · have apart : ∀ t ∈ typedKeys, t ≠ key := fun t ht same => typed (same ▸ ht)
    simp only [typedKeys, List.forall_mem_cons, List.not_mem_nil, false_imp_iff, implies_true,
      and_true] at apart
    simp only [apart, if_false, Option.none_or]
    rw [get?_of_untyped d typed, if_neg fun h => apart.2.1 h.1.symm]

end Reading

end Descriptor

/-- **Fields are read as they were written.** The fields of a descriptor whose extra fields have
other keys than the typed ones, each once. A write is refused exactly if the field is typed and
keeps nothing of the value, since it has not its shape; the descriptor stays as it is then, and the
error names the field. After a write that was accepted the field reads as what it keeps of the value
and all others as before. A value that was read can be written back and leaves the whole descriptor
as it is, with the order of its fields. The written form of the descriptor has a field exactly if
reading finds one, with the same value, but no empty attributes. -/
theorem descriptor_fields_lawful (d : Descriptor)
    (untyped : ∀ f ∈ d.extra, f.1 ∉ Descriptor.typedKeys) (once : (d.extra.map (·.1)).Nodup)
    (key : String) :
    (∀ v, let written := Attempt.ofExcept d (d.set key v)
      (written.accepted = false ↔
        key ∈ Descriptor.typedKeys ∧ ∀ w, ¬Descriptor.Keeps key v w) ∧
      (written.accepted = false → written.left = d ∧
        ∃ reason, written.refusal? = some (.invalidProperty key reason)) ∧
      (written.accepted = true → (∀ w, Descriptor.Keeps key v w ↔ written.left.get? key = w) ∧
        ∀ other, other ≠ key → written.left.get? other = d.get? other)) ∧
    (∀ w, d.get? key = some w → d.set key w = .ok d) ∧
    ∃ o, d.toJson = .object o ∧ JsonObject.get? o key =
      if key = "attrs" ∧ d.attrs.isEmpty then none else d.get? key := by
  refine ⟨fun v => ?_, fun w => Descriptor.set_of_get? once, d.toFields, rfl,
    Descriptor.get?_toFields untyped key⟩
  cases outcome : d.set key v with
  | error e =>
    obtain ⟨reason, rfl⟩ := Descriptor.set_eq_error outcome
    have noShape : ∀ w, ¬Descriptor.Keeps key v w := fun w keeps => by
      obtain ⟨d', writes, -⟩ := Descriptor.exists_writes (d := d) keeps
      rw [Descriptor.set_eq_ok_iff.2 writes] at outcome
      cases outcome
    have typed : key ∈ Descriptor.typedKeys := by
      by_contra free
      exact noShape _ (.extra free)
    exact ⟨iff_of_true rfl ⟨typed, noShape⟩, fun _ => ⟨rfl, reason, rfl⟩, nofun⟩
  | ok d' =>
    have writes := Descriptor.set_eq_ok_iff.1 outcome
    have keeps := Descriptor.keeps_of_writes writes
    refine ⟨iff_of_false nofun fun refused => refused.2 _ keeps, nofun, fun _ => ⟨fun w => ?_,
      fun other => Descriptor.get?_of_writes_of_ne writes⟩⟩
    constructor
    · intro own
      obtain ⟨d'', writes', holds⟩ := Descriptor.exists_writes (d := d) own
      rw [Descriptor.set_eq_ok_iff.2 writes', Except.ok.injEq] at outcome
      exact outcome ▸ holds
    · rintro rfl
      exact keeps

/-- A place given with keys that are not known, and with one of its positions as an array, is held
without the former and with the latter as an object. -/
theorem place_held_without_unknown_keys :
    let d : Descriptor :=
      { attrs := [("lang", .string "ts")], extra := [("map", .null), ("name", .string "a")] }
    let v : Json := .object [("end", .array [.nat 8, .nat 0, .nat 8]), ("file", .string "a.vue"),
      ("start", .object [("line", .nat 0), ("offset", .nat 6), ("column", .nat 6), ("byte", .null)]),
      ("source", .string "ab")]
    let l : Location := ⟨⟨6, 0, 6⟩, ⟨8, 0, 8⟩, ['a', 'b']⟩
    let written := Attempt.ofExcept d (d.set "loc" v)
    (∀ f ∈ d.extra, f.1 ∉ Descriptor.typedKeys) ∧ (d.extra.map (·.1)).Nodup ∧
      written.accepted = true ∧ written.left.get? "loc" = some l.toJson ∧
      written.left.get? "map" = some .null := by
  intro d v l written
  have untyped : ∀ f ∈ d.extra, f.1 ∉ Descriptor.typedKeys := by decide
  have once : (d.extra.map (·.1)).Nodup := by decide
  have form : Placement.HasForm (.location l) v :=
    .location (.fields rfl rfl rfl (.fields rfl rfl rfl) .items)
  obtain ⟨refused, -, accepted⟩ := (descriptor_fields_lawful d untyped once "loc").1 v
  have taken : written.accepted = true :=
    (Bool.eq_false_or_eq_true _).resolve_right fun no => (refused.1 no).2 _ (.place form)
  obtain ⟨holds, others⟩ := accepted taken
  exact ⟨untyped, once, taken, (holds _).1 (.place form), others "map" (by decide)⟩

end ComponentEdit
