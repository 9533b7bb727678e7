import ComponentEdit.Block.Basic
import ComponentEdit.Proofs.Descriptor.Fields

/-!
# The properties of a block

What is read under the name of an operation or under `source` is the block's own, whatever its
handler does and its descriptor holds, and no value is taken for an operation. Handlers that only
differ in what they do there answer any row of requests alike (`askAll_of_agrees`). Where the
handler goes to the descriptor, one request writes at most one field (`ask_cases`), so a key reads
as what was kept of the last value that was taken for it, or as before if there was none
(`get_askAll_write`, `get_askAll`).
-/

namespace ComponentEdit
set_option autoImplicit false

namespace Operation
variable {key : String}

theorem ofName?_name (op : Operation) : ofName? op.name = some op := by
  cases op <;> decide

theorem ofName?_eq_none (free : ∀ op : Operation, op.name ≠ key) : ofName? key = none :=
  List.find?_eq_none.2 fun op _ same => free op (by simpa using same)

/-- The names of the operations leave `source` to other uses. -/
theorem name_ne_source (op : Operation) : op.name ≠ "source" := by
  cases op <;> decide

end Operation

/-- Handlers that do the same with all keys that can be left to them. -/
structure Handler.Agrees (h h' : Handler) : Prop where
  get? : ∀ d key, (∀ op : Operation, op.name ≠ key) → key ≠ "source" → h.get? d key = h'.get? d key
  set : ∀ d key v, (∀ op : Operation, op.name ≠ key) → h.set d key v = h'.set d key v

namespace Block

/-- A property is read or written. -/
inductive Request where
  | read (key : String)
  | write (key : String) (v : Json)

/-- What comes back from a request. -/
inductive Answer where
  | found (property : Except Error (Option Property))
  | written (refusal? : Option Error)

/-- Carry out a request. -/
def ask (b : Block) (source : Option Source) : Request → Block × Answer
  | .read key => (b, .found (b.get source key))
  | .write key v => ((b.set key v).left, .written (b.set key v).refusal?)

/-- Carry out one request after the other. -/
def askAll (b : Block) (source : Option Source) : List Request → Block × List Answer
  | [] => (b, [])
  | r :: rs =>
    let asked := (b.ask source r).1.askAll source rs
    (asked.1, (b.ask source r).2 :: asked.2)

/-- No request writes a value to a key that it would keep something of. -/
def Untaken (key : String) (rs : List Request) : Prop :=
  ∀ v, .write key v ∈ rs → ∀ w?, ¬Descriptor.Keeps key v w?

variable {b : Block} {source : Option Source} {key : String} {v : Json} {w? : Option Json}
  {h : Handler} {r : Request} {rs before after : List Request}

section Keys

theorem get_operation (b : Block) (source : Option Source) (op : Operation) :
    b.get source op.name = .ok (some (.operation op)) := by
  rw [get, op.ofName?_name]

theorem set_operation (b : Block) (op : Operation) (v : Json) :
    ∃ reason, b.set op.name v = .refused b (.invalidProperty op.name reason) := by
  rw [set, op.ofName?_name]
  exact ⟨_, rfl⟩

theorem get_source (b : Block) (source : Option Source) :
    b.get source "source" = (Source.held source).map fun s => some (.source s) := by
  rw [get, Operation.ofName?_eq_none Operation.name_ne_source]
  exact if_pos rfl

theorem get_of_free (free : ∀ op : Operation, op.name ≠ key) (other : key ≠ "source") (b : Block)
    (source : Option Source) :
    b.get source key = .ok ((b.handler.get? b.descriptor key).map .value) := by
  rw [get, Operation.ofName?_eq_none free]
  exact if_neg other

theorem set_of_free (free : ∀ op : Operation, op.name ≠ key) (b : Block) (v : Json) :
    b.set key v = (b.handler.set b.descriptor key v).map fun d => { b with descriptor := d } := by
  rw [set, Operation.ofName?_eq_none free]

theorem operation_or_free (key : String) :
    (∃ op : Operation, op.name = key) ∨ ∀ op : Operation, op.name ≠ key := by
  by_cases named : ∃ op : Operation, op.name = key
  · exact .inl named
  · exact .inr (not_exists.1 named)

end Keys

section Handlers

theorem handler_ask (b : Block) (source : Option Source) (r : Request) :
    (b.ask source r).1.handler = b.handler := by
  cases r with
  | read => rfl
  | write key v =>
    simp only [ask, set]
    split <;> rfl

theorem handler_askAll (b : Block) (source : Option Source) (rs : List Request) :
    (b.askAll source rs).1.handler = b.handler := by
  induction rs generalizing b with
  | nil => rfl
  | cons r rs ih => exact (ih _).trans (handler_ask b source r)

/-- A request tells nothing of what a handler does with the keys that are not left to it. -/
theorem ask_of_agrees (agrees : b.handler.Agrees h) (source : Option Source) (r : Request) :
    ({ b with handler := h } : Block).ask source r =
      ({ (b.ask source r).1 with handler := h }, (b.ask source r).2) := by
  cases r with
  | read key =>
    have same : ({ b with handler := h } : Block).get source key = b.get source key := by
      rcases operation_or_free key with ⟨op, rfl⟩ | free
      · rw [get_operation, get_operation]
      · by_cases own : key = "source"
        · rw [own, get_source, get_source]
        · rw [get_of_free free own, get_of_free free own, agrees.get? _ _ free own]
    rw [ask, ask, same]
  | write key v =>
    rcases operation_or_free key with ⟨op, rfl⟩ | free
    · simp only [ask, set, op.ofName?_name]
      rfl
    · rw [ask, ask, set_of_free free, set_of_free free, agrees.set _ _ _ free]
      rfl

theorem askAll_of_agrees (agrees : b.handler.Agrees h) (source : Option Source)
    (rs : List Request) : ({ b with handler := h } : Block).askAll source rs =
      ({ (b.askAll source rs).1 with handler := h }, (b.askAll source rs).2) := by
  induction rs generalizing b with
  | nil => rfl
  | cons r rs ih =>
    have later := ih (b := (b.ask source r).1) (by rwa [handler_ask])
    simp only [askAll, ask_of_agrees agrees, later]

end Handlers

section Fields

theorem get_of_direct (direct : b.handler = {}) (free : ∀ op : Operation, op.name ≠ key)
    (other : key ≠ "source") (source : Option Source) :
    b.get source key = .ok ((b.descriptor.get? key).map .value) := by
  rw [get_of_free free other, direct]

/-- A value is refused, or it is written to its field. -/
theorem set_cases (direct : b.handler = {}) (free : ∀ op : Operation, op.name ≠ key) (v : Json) :
    (∃ e, b.set key v = .refused b e ∧ ∀ w?, ¬Descriptor.Keeps key v w?) ∨
    ∃ d, b.set key v = .done { b with descriptor := d } ∧ b.descriptor.Writes key v d := by
  have written : b.set key v = (Attempt.ofExcept b.descriptor (b.descriptor.set key v)).map
      fun d => { b with descriptor := d } := by
    rw [set_of_free free, direct]
  cases outcome : b.descriptor.set key v with
  | error e =>
    refine .inl ⟨e, by rw [written, outcome]; rfl, fun w? keeps => ?_⟩
    obtain ⟨d, writes, -⟩ := Descriptor.exists_writes (d := b.descriptor) keeps
    rw [Descriptor.set_eq_ok_iff.2 writes] at outcome
    cases outcome
  | ok d => exact .inr ⟨d, by rw [written, outcome]; rfl, Descriptor.set_eq_ok_iff.1 outcome⟩

/-- A value is taken if something of it is kept. -/
theorem accepted_set_iff (direct : b.handler = {}) (free : ∀ op : Operation, op.name ≠ key) :
    (b.set key v).accepted = true ↔ ∃ w?, Descriptor.Keeps key v w? := by
  rcases set_cases direct free v with ⟨e, refused, none⟩ | ⟨d, done, writes⟩
  · simp [refused, none]
  · simpa [done] using ⟨_, Descriptor.keeps_of_writes writes⟩

/-- A request leaves the block as it is, or it writes one field. -/
theorem ask_cases (direct : b.handler = {}) (source : Option Source) (r : Request) :
    (b.ask source r).1 = b ∨ ∃ key v d, r = .write key v ∧ b.descriptor.Writes key v d ∧
      (b.ask source r).1 = { b with descriptor := d } := by
  cases r with
  | read => exact .inl rfl
  | write key v =>
    rcases operation_or_free key with ⟨op, rfl⟩ | free
    · obtain ⟨reason, refused⟩ := set_operation b op v
      exact .inl (by rw [ask, refused]; rfl)
    · rcases set_cases direct free v with ⟨e, refused, -⟩ | ⟨d, done, writes⟩
      · exact .inl (by rw [ask, refused]; rfl)
      · exact .inr ⟨key, v, d, rfl, writes, by rw [ask, done]; rfl⟩

/-- A field that no value is taken for reads as before. -/
theorem get_askAll (direct : b.handler = {}) (source : Option Source)
    (untaken : Untaken key rs) :
    (b.askAll source rs).1.descriptor.get? key = b.descriptor.get? key := by
  induction rs generalizing b with
  | nil => rfl
  | cons r rs ih =>
    have later := ih ((handler_ask b source r).trans direct)
      fun v mem => untaken v (List.mem_cons_of_mem r mem)
    refine later.trans ?_
    -- A request that writes a field takes a value, so the field is another one.
    rcases ask_cases direct source r with same | ⟨other, v, d, rfl, writes, left⟩
    · rw [same]
    · have ne : key ≠ other := by
        rintro rfl
        exact untaken v List.mem_cons_self _ (Descriptor.keeps_of_writes writes)
      rw [left, Descriptor.get?_of_writes_of_ne writes ne]

theorem askAll_append (b : Block) (source : Option Source) (before after : List Request) :
    (b.askAll source (before ++ after)).1 =
      ((b.askAll source before).1.askAll source after).1 := by
  induction before generalizing b with
  | nil => rfl
  | cons r before ih => exact ih _

/-- A field reads as what it keeps of the last value that was taken for it. -/
theorem get_askAll_write (direct : b.handler = {}) (free : ∀ op : Operation, op.name ≠ key)
    (source : Option Source) (keeps : Descriptor.Keeps key v w?) (untaken : Untaken key after) :
    (b.askAll source (before ++ .write key v :: after)).1.descriptor.get? key = w? := by
  have direct' := (handler_askAll b source before).trans direct
  rw [askAll_append]
  generalize (b.askAll source before).1 = b' at direct' ⊢
  rw [askAll, get_askAll ((handler_ask ..).trans direct') source untaken]
  rcases set_cases direct' free v with ⟨e, -, none⟩ | ⟨d, done, writes⟩
  · exact absurd keeps (none w?)
  · obtain ⟨d', writes', holds⟩ := Descriptor.exists_writes (d := b'.descriptor) keeps
    have same : d' = d := by
      have twice := Descriptor.set_eq_ok_iff.2 writes
      rw [Descriptor.set_eq_ok_iff.2 writes'] at twice
      exact Except.ok.inj twice
    rw [ask, done, ← holds, same]
    rfl

end Fields

end Block

/-- **Reserved names are closed to the handler.** The name of an operation reads as the operation
and takes no value, and `source` reads as the source of the block; all other keys are read and
written by the handler alone. So handlers that only differ in what they do with the names of
operations, or in what they read under `source`, answer every row of requests alike and leave the
same block. With the handler that goes to the descriptor, a value is taken for a key if the field
keeps something of it, and only then; after any requests the key reads as what it keeps of the last
value that was taken for it, or as before if there was none. -/
theorem reserved_names_closed (b : Block) (source : Option Source) :
    (∀ op : Operation, b.get source op.name = .ok (some (.operation op)) ∧
      ∀ v, ∃ reason, b.set op.name v = .refused b (.invalidProperty op.name reason)) ∧
    b.get source "source" = (Source.held source).map (fun s => some (.source s)) ∧
    (∀ key, (∀ op : Operation, op.name ≠ key) → key ≠ "source" →
      b.get source key = .ok ((b.handler.get? b.descriptor key).map .value) ∧
      ∀ v, b.set key v =
        (b.handler.set b.descriptor key v).map fun d => { b with descriptor := d }) ∧
    (∀ h, b.handler.Agrees h → ∀ rs, ({ b with handler := h } : Block).askAll source rs =
      ({ (b.askAll source rs).1 with handler := h }, (b.askAll source rs).2)) ∧
    (b.handler = {} → ∀ key, (∀ op : Operation, op.name ≠ key) → key ≠ "source" →
      (∀ v, (b.set key v).accepted = true ↔ ∃ w?, Descriptor.Keeps key v w?) ∧
      (∀ rs, Block.Untaken key rs → (b.askAll source rs).1.get source key = b.get source key) ∧
      ∀ before v w? after, Descriptor.Keeps key v w? → Block.Untaken key after →
        (b.askAll source (before ++ .write key v :: after)).1.get source key =
          .ok (w?.map .value)) := by
  refine ⟨fun op => ⟨b.get_operation source op, b.set_operation op⟩, b.get_source source,
    fun key free other => ⟨Block.get_of_free free other b source, Block.set_of_free free b⟩,
    fun h agrees => Block.askAll_of_agrees agrees source, fun direct key free other => ?_⟩
  have reads : ∀ rs, (b.askAll source rs).1.get source key =
      .ok (((b.askAll source rs).1.descriptor.get? key).map .value) := fun rs =>
    Block.get_of_direct ((b.handler_askAll source rs).trans direct) free other source
  refine ⟨fun v => Block.accepted_set_iff direct free, fun rs untaken => ?_,
    fun before v w? after keeps untaken => ?_⟩
  · rw [reads, Block.get_askAll direct source untaken, Block.get_of_direct direct free other]
  · rw [reads, Block.get_askAll_write direct free source keeps untaken]

/-- Null unsets a field and reads as nothing, and a place reads without what is unknown in it. -/
theorem kept_value_differs :
    let b : Block :=
      { descriptor := { lang := some "ts" }, span := ⟨7, 12⟩, snippet := .ofText "World".toList }
    let place : Json := .object [("start", .nat 7), ("end", .nat 12), ("file", .string "a.vue")]
    b.handler = {} ∧
      (b.set "lang" .null).accepted = true ∧
      (b.set "lang" .null).left.get none "lang" ≠ .ok (some (.value .null)) ∧
      (b.set "loc" place).accepted = true ∧
      (b.set "loc" place).left.get none "loc" ≠ .ok (some (.value place)) := by
  intro b place
  have unset : (b.set "lang" .null).left.get none "lang" = .ok none := rfl
  have held : (b.set "loc" place).left.get none "loc" =
      .ok (some (.value (.object [("start", .nat 7), ("end", .nat 12)]))) := rfl
  refine ⟨rfl, rfl, ?_, rfl, ?_⟩
  · rw [unset]
    nofun
  · rw [held]
    intro same
    simp [place] at same

/-- Fields and a handler that have reserved names for themselves are not heard. -/
theorem shadowed_names_stay_reserved :
    let b : Block :=
      { descriptor :=
          { lang := some "ts"
            extra := [("overwrite", .string "shadowed"), ("source", .string "shadowed")] }
        span := ⟨7, 12⟩, snippet := .ofText "World".toList }
    let source : Option Source := some { buffer := .ofText "Hello, World!".toList }
    let trap : Handler :=
      { get? := fun d key => if key ∈ ["overwrite", "source"] then some .null else d.get? key
        set := fun d key v =>
          if key = "overwrite" then .done {} else .ofExcept d (d.set key v) }
    let before : List Block.Request := [.read "source", .write "overwrite" (.string "nope")]
    let after : List Block.Request := [.write "lang" (.bool true), .read "overwrite"]
    b.handler.Agrees trap ∧
      (({ b with handler := trap } : Block).askAll source before).2 = (b.askAll source before).2 ∧
      b.get source "overwrite" = .ok (some (.operation .overwrite)) ∧
      b.handler = {} ∧ Descriptor.Keeps "lang" .null none ∧ Block.Untaken "lang" after ∧
      (b.askAll source (before ++ .write "lang" .null :: after)).1.get source "lang" =
        .ok none := by
  intro b source trap before after
  have agrees : b.handler.Agrees trap := by
    refine ⟨fun d key free other => ?_, fun d key v free => ?_⟩
    · have unlisted : key ∉ ["overwrite", "source"] := by
        simpa using ⟨(free .overwrite).symm, other⟩
      exact (if_neg unlisted).symm
    · exact (if_neg (free .overwrite).symm).symm
  obtain ⟨operations, -, -, alike, direct⟩ := reserved_names_closed b source
  obtain ⟨taken, -, last⟩ := direct rfl "lang" (by intro op; cases op <;> decide) (by decide)
  have keeps : Descriptor.Keeps "lang" .null none := .nothing (by decide)
  have untaken : Block.Untaken "lang" after := by
    intro v mem w? kept
    obtain rfl : v = .bool true := by simpa [after] using mem
    exact absurd ((taken (.bool true)).2 ⟨w?, kept⟩) (by decide)
  exact ⟨agrees, by rw [alike trap agrees before], (operations .overwrite).1, rfl, keeps, untaken,
    last before .null none after keeps untaken⟩

end ComponentEdit
