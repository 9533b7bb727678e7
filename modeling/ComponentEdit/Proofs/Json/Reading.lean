import ComponentEdit.Json.Reader
import ComponentEdit.Json.Writer
import Mathlib.Data.List.Nodup

/-!
# Written JSON reads back

The reader gives every value back that the writer has written, if the form of its numbers is kept
(`Json.Exact`): floating-point numbers are left out, since they are read with two roundings, and so
are objects with a repeated key, of which the reader keeps one (`Json.parse?_render`). A value is
read up to what ends it (`Json.Ends`), and two steps of fuel a character are enough for it.
-/

namespace ComponentEdit
set_option autoImplicit false

namespace Json

/-- A value without floating-point numbers, whose whole numbers fit into 64 bits and whose objects
have every key once. -/
inductive Exact : Json → Prop where
  | null : Exact .null
  | bool (b : Bool) : Exact (.bool b)
  | whole {n : Int} (lo : -(twoTo 63 : Int) ≤ n) (hi : n < twoTo 64) : Exact (.number (.whole n))
  | string (s : String) : Exact (.string s)
  | array {items : List Json} (each : ∀ v ∈ items, Exact v) : Exact (.array items)
  | object {fields : List (String × Json)} (keys : (fields.map (·.1)).Nodup)
      (each : ∀ f ∈ fields, Exact f.2) : Exact (.object fields)

/-- What may follow a value: nothing, or what ends an item, an array or an object. -/
def Ends (rest : List Char) : Prop :=
  rest = [] ∨ ∃ c cs, rest = c :: cs ∧ (c = ',' ∨ c = ']' ∨ c = '}')

/-- The written form of a value is read as the value, with enough fuel and what may follow it. -/
def ReadsBack (v : Json) : Prop :=
  ∀ fuel rest, 2 * v.render.length ≤ fuel → Ends rest →
    readValue fuel (v.render ++ rest) = some (v, rest)

section Strings

/-- The four digits of a character below U+0020. -/
theorem readUnit_control (n : Nat) (lt : n < 0x20) (cs : List Char) :
    readUnit ('0' :: '0' :: hexDigit (n / 16) :: hexDigit n :: cs) = some (n, cs) := by
  have digits : ∀ n < 0x20, hexValue? '0' = some 0 ∧ hexValue? (hexDigit (n / 16)) = some (n / 16) ∧
      hexValue? (hexDigit n) = some (n % 16) := by decide
  obtain ⟨zero, high, low⟩ := digits n lt
  simp only [readUnit, zero, high, low, Option.bind_eq_bind, Option.bind_some]
  congr 2
  omega

/-- The escape of a character is read as the character. -/
theorem readString_escapeChar (fuel : Nat) (c : Char) (cs : List Char) :
    readString (fuel + 1) (escapeChar c ++ cs) =
      (readString fuel cs).map fun (s, rest) => (c :: s, rest) := by
  have goOn : ∀ d : Char, ((readString fuel cs).bind fun (s, rest) => some (d :: s, rest)) =
      (readString fuel cs).map fun (s, rest) => (d :: s, rest) := fun d => by
    cases readString fuel cs <;> rfl
  by_cases named : c = '"' ∨ c = '\\' ∨ c = '\x08' ∨ c = '\x0c' ∨ c = '\n' ∨ c = '\r' ∨ c = '\t'
  · rcases named with rfl | rfl | rfl | rfl | rfl | rfl | rfl <;> exact goOn _
  · simp only [not_or] at named
    obtain ⟨quote, backslash, b, f, n, r, t⟩ := named
    by_cases control : c.toNat < 0x20
    · have unit := readUnit_control c.toNat control cs
      have low : ¬0xd800 ≤ c.toNat := by omega
      have plain : ¬0xdc00 ≤ c.toNat := by omega
      simp only [escapeChar, quote, backslash, b, f, n, r, t, control, if_true, if_false,
        List.cons_append, List.nil_append, readString, readEscapedUnit, unit, Option.bind_eq_bind,
        Option.bind_some, low, plain, decide_false, Bool.false_and, Char.ofNat_toNat]
      exact goOn c
    · simp only [escapeChar, quote, backslash, b, f, n, r, t, control, if_false, List.cons_append,
        List.nil_append, readString]
      exact goOn c

/-- A string is read up to its closing quote. -/
theorem readString_quoted (s rest : List Char) {fuel : Nat} (enough : s.length < fuel) :
    readString fuel (s.flatMap escapeChar ++ '"' :: rest) = some (s, rest) := by
  induction s generalizing fuel with
  | nil =>
    obtain ⟨fuel, rfl⟩ := Nat.exists_eq_succ_of_ne_zero (Nat.ne_of_gt enough)
    simp [readString]
  | cons c s ih =>
    obtain ⟨fuel, rfl⟩ := Nat.exists_eq_succ_of_ne_zero (Nat.ne_of_gt (Nat.zero_lt_of_lt enough))
    rw [List.flatMap_cons, List.append_assoc, Nat.succ_eq_add_one, readString_escapeChar,
      ih (by simp only [List.length_cons] at enough; omega)]
    rfl

theorem length_le_length_escaped (s : List Char) : s.length ≤ (s.flatMap escapeChar).length := by
  induction s with
  | nil => exact Nat.le_refl _
  | cons c s ih =>
    have one : 1 ≤ (escapeChar c).length := by
      unfold escapeChar
      repeat' split
      all_goals simp
    rw [List.flatMap_cons, List.length_append, List.length_cons]
    omega

/-- Behind its opening quote a string is read with the fuel that the reader takes. -/
theorem readString_tail (s : String) (rest : List Char) :
    let cs := s.toList.flatMap escapeChar ++ '"' :: rest
    readString (cs.length + 1) cs = some (s.toList, rest) := by
  intro cs
  refine readString_quoted s.toList rest ?_
  have := length_le_length_escaped s.toList
  simp only [cs, List.length_append]
  omega

end Strings

section Numbers

theorem digitsValue_toDigits (n : Nat) : digitsValue (Nat.toDigits 10 n) = n := by
  have same : ∀ (ds : List Char) (init : Nat),
      ds.foldl (fun n d => n * 10 + (d.toNat - '0'.toNat)) init = Nat.ofDigitChars 10 ds init := by
    intro ds
    induction ds with
    | nil => intro init; rfl
    | cons d ds ih => intro init; rw [List.foldl_cons, ih, Nat.ofDigitChars_cons, Nat.mul_comm]
  rw [digitsValue, same, Nat.ofDigitChars_ten_toDigits]

/-- Only the number zero starts with the digit zero. -/
theorem toDigits_head (n : Nat) :
    ∃ d ds, Nat.toDigits 10 n = d :: ds ∧ d.isDigit = true ∧ (d = '0' → n = 0) := by
  induction n using Nat.strongRecOn with
  | ind n ih =>
    by_cases small : n < 10
    · have single : ∀ n < 10, n.digitChar.isDigit = true ∧ (n.digitChar = '0' → n = 0) := by decide
      exact ⟨n.digitChar, [], Nat.toDigits_of_lt_base small, single n small⟩
    · obtain ⟨d, ds, eq, digit, zero⟩ := ih (n / 10) (by omega)
      refine ⟨d, ds ++ [Nat.digitChar (n % 10)], ?_, digit, fun first => ?_⟩
      · rw [Nat.toDigits_of_base_le (by decide) (by omega), eq, List.cons_append]
      · have := zero first
        omega

/-- A number of more than one digit does not start with zero. -/
theorem toDigits_canonical (n : Nat) : ((Nat.toDigits 10 n).isEmpty ||
    ((Nat.toDigits 10 n).length != 1 && (Nat.toDigits 10 n).head? == some '0')) = false := by
  obtain ⟨d, ds, eq, -, zero⟩ := toDigits_head n
  by_cases first : d = '0'
  · rw [zero first]
    decide
  · rw [eq]
    simp [first]

/-- What ends a value is no part of a number. -/
theorem Ends.not_digit {rest : List Char} (h : Ends rest) :
    rest.takeWhile Char.isDigit = [] ∧ rest.dropWhile Char.isDigit = rest := by
  rcases h with rfl | ⟨c, cs, rfl, rfl | rfl | rfl⟩ <;> exact ⟨rfl, rfl⟩

/-- The digits of a number are read up to what ends it. -/
theorem digits_append (n : Nat) {rest : List Char} (h : Ends rest) :
    (Nat.toDigits 10 n ++ rest).takeWhile Char.isDigit = Nat.toDigits 10 n ∧
      (Nat.toDigits 10 n ++ rest).dropWhile Char.isDigit = rest := by
  have all : ∀ c ∈ Nat.toDigits 10 n, c.isDigit = true := fun c hc =>
    Nat.isDigit_of_mem_toDigits (by decide) (by decide) hc
  rw [List.takeWhile_append_of_pos all, List.dropWhile_append_of_pos all, h.not_digit.1,
    h.not_digit.2, List.append_nil]
  exact ⟨rfl, rfl⟩

/-- The digits of a number, behind its sign. -/
theorem readNumber_digits (negative : Bool) (n : Nat) {rest : List Char} (h : Ends rest) :
    readNumber ((if negative then ['-'] else []) ++ (Nat.toDigits 10 n ++ rest)) =
      (whole? negative (Nat.toDigits 10 n)).map (·, rest) := by
  obtain ⟨taken, left⟩ := digits_append n h
  have canonical := toDigits_canonical n
  cases negative with
  | true =>
    simp only [if_true, List.cons_append, List.nil_append]
    rw [readNumber]
    simp only [taken, left, canonical]
    rcases h with rfl | ⟨c, cs, rfl, rfl | rfl | rfl⟩ <;> rfl
  | false =>
    simp only [Bool.false_eq_true, if_false, List.nil_append]
    rw [readNumber]
    · simp only [taken, left, canonical]
      rcases h with rfl | ⟨c, cs, rfl, rfl | rfl | rfl⟩ <;> rfl
    · obtain ⟨d, ds, eq, digit, -⟩ := toDigits_head n
      rintro cs same
      rw [eq, List.cons_append, List.cons.injEq] at same
      rw [same.1] at digit
      exact absurd digit (by decide)

/-- A whole number of 64 bits is read as it is. -/
theorem readNumber_whole {n : Int} (lo : -(twoTo 63 : Int) ≤ n) (hi : n < twoTo 64)
    {rest : List Char} (h : Ends rest) :
    readNumber ((JsonNumber.whole n).text.toList ++ rest) = some (.whole n, rest) := by
  rw [JsonNumber.text, Int.toString_eq_repr, Int.repr_eq_if]
  by_cases nonneg : 0 ≤ n
  · have value : (n.toNat : Int) = n := Int.toNat_of_nonneg nonneg
    have fits : n.toNat < twoTo 64 := by omega
    have read := readNumber_digits false n.toNat h
    rw [if_pos nonneg, Nat.toList_repr]
    simp only [Bool.false_eq_true, if_false, List.nil_append] at read
    rw [read, whole?]
    simp [digitsValue_toDigits, fits, value]
  · have value : ((-n).toNat : Int) = -n := Int.toNat_of_nonneg (by omega)
    have fits : 0 < (-n).toNat ∧ (-n).toNat ≤ twoTo 63 := by omega
    have read := readNumber_digits true (-n).toNat h
    rw [if_neg nonneg, String.toList_append, Nat.toList_repr]
    simp only [if_true] at read
    rw [List.append_assoc]
    refine read.trans ?_
    rw [whole?]
    simp [digitsValue_toDigits, fits, value]

/-- A written whole number starts with a digit or a sign. -/
theorem text_head (n : Int) : ∃ c cs,
    (JsonNumber.whole n).text.toList = c :: cs ∧ (c.isDigit = true ∨ c = '-') := by
  rw [JsonNumber.text, Int.toString_eq_repr, Int.repr_eq_if]
  split
  · obtain ⟨d, ds, eq, digit, -⟩ := toDigits_head n.toNat
    exact ⟨d, ds, by rw [Nat.toList_repr, eq], .inl digit⟩
  · exact ⟨'-', (-n).toNat.repr.toList, by rw [String.toList_append]; rfl, .inr rfl⟩

section Start
variable {c : Char} (start : c.isDigit = true ∨ c = '-')
include start

theorem ne_of_start {d : Char} (letter : d.isDigit = false) (sign : d ≠ '-') : c ≠ d := by
  rintro rfl
  rw [letter] at start
  exact start.elim nofun sign

theorem isBlank_of_start : isBlank c = false := by
  have apart := fun (d : Char) (letter : d.isDigit = false) (sign : d ≠ '-') =>
    beq_eq_false_iff_ne.2 (ne_of_start start letter sign)
  simp only [isBlank, apart ' ' (by decide) (by decide), apart '\n' (by decide) (by decide),
    apart '\t' (by decide) (by decide), apart '\r' (by decide) (by decide), Bool.or_false]

end Start

end Numbers

section Values
variable {v : Json} {items : List Json} {fields : List (String × Json)}

/-- A written value starts with a character that is no blank and closes nothing. -/
theorem Exact.head (h : Exact v) :
    ∃ c cs, v.render = c :: cs ∧ isBlank c = false ∧ c ≠ ']' ∧ c ≠ '}' := by
  cases h with
  | null => exact ⟨'n', _, rfl, by decide⟩
  | bool b => cases b with
    | true => exact ⟨'t', _, rfl, by decide⟩
    | false => exact ⟨'f', _, rfl, by decide⟩
  | @whole n lo hi =>
    obtain ⟨c, cs, eq, start⟩ := text_head n
    exact ⟨c, cs, by rw [render, eq], isBlank_of_start start,
      ne_of_start start (by decide) (by decide), ne_of_start start (by decide) (by decide)⟩
  | string s => exact ⟨'"', _, rfl, by decide⟩
  | array each => exact ⟨'[', _, rfl, by decide⟩
  | object keys each => exact ⟨'{', _, rfl, by decide⟩

theorem skipBlanks_of_head {c : Char} (h : isBlank c = false) (cs : List Char) :
    skipBlanks (c :: cs) = c :: cs := by
  simp [skipBlanks, h]

theorem commaSeparated_cons (p q : List Char) (ps : List (List Char)) :
    commaSeparated (p :: q :: ps) = p ++ ',' :: commaSeparated (q :: ps) := rfl

/-- The last item of an array, and one in front of others. -/
theorem readItems_step {fuel : Nat} {last : Char} {rest : List Char}
    (read : readValue fuel (v.render ++ last :: rest) = some (v, last :: rest)) :
    (last = ']' → readItems (fuel + 1) (v.render ++ last :: rest) = some ([v], rest)) ∧
      (last = ',' → readItems (fuel + 1) (v.render ++ last :: rest) =
        (readItems fuel rest).map fun (vs, rest) => (v :: vs, rest)) := by
  rw [readItems, read]
  constructor
  · rintro rfl
    rfl
  · rintro rfl
    simp only [Option.bind_eq_bind, Option.bind_some]
    rw [skipBlanks_of_head (by decide), Option.map_eq_bind]
    rfl

/-- The last field of an object, and one in front of others. -/
theorem readFields_step {fuel : Nat} {last : Char} {rest : List Char} (key : String)
    (read : readValue fuel (v.render ++ last :: rest) = some (v, last :: rest)) :
    (last = '}' → readFields (fuel + 1) ((quote key ++ ':' :: v.render) ++ last :: rest) =
        some ([(key, v)], rest)) ∧
      (last = ',' → readFields (fuel + 1) ((quote key ++ ':' :: v.render) ++ last :: rest) =
        (readFields fuel rest).map fun (fs, rest) => ((key, v) :: fs, rest)) := by
  have name := readString_tail key (':' :: (v.render ++ last :: rest))
  have row : (quote key ++ ':' :: v.render) ++ last :: rest =
      '"' :: (key.toList.flatMap escapeChar ++ '"' :: ':' :: (v.render ++ last :: rest)) := by
    simp [quote]
  rw [row, readFields, skipBlanks_of_head (by decide)]
  simp only [name, Option.bind_eq_bind, Option.bind_some]
  rw [skipBlanks_of_head (by decide)]
  simp only [read, Option.bind_some, String.ofList_toList]
  constructor
  · rintro rfl
    rfl
  · rintro rfl
    rw [skipBlanks_of_head (by decide), Option.map_eq_bind]
    rfl

/-- The items of an array are read up to its closing bracket. -/
theorem readItems_render (each : ∀ v ∈ items, ReadsBack v) (ne : items ≠ []) (fuel : Nat)
    (enough : 2 * (commaSeparated (renderItems items)).length < fuel) (rest : List Char) :
    readItems fuel (commaSeparated (renderItems items) ++ ']' :: rest) = some (items, rest) := by
  induction items generalizing fuel with
  | nil => exact absurd rfl ne
  | cons v items ih =>
    obtain ⟨fuel, rfl⟩ := Nat.exists_eq_succ_of_ne_zero (Nat.ne_of_gt (Nat.zero_lt_of_lt enough))
    cases items with
    | nil =>
      simp only [renderItems, commaSeparated] at enough ⊢
      exact (readItems_step (each v List.mem_cons_self fuel _ (by omega)
        (.inr ⟨_, _, rfl, by simp⟩))).1 rfl
    | cons w items =>
      simp only [renderItems, commaSeparated_cons, List.length_append, List.length_cons] at enough
      have others := ih (fun u hu => each u (List.mem_cons_of_mem _ hu)) (by simp) fuel
        (by simp only [renderItems]; omega)
      rw [renderItems, renderItems, commaSeparated_cons, List.append_assoc, List.cons_append,
        (readItems_step (each v List.mem_cons_self fuel _ (by omega)
          (.inr ⟨_, _, rfl, by simp⟩))).2 rfl]
      rw [renderItems] at others
      rw [others]
      rfl

/-- The fields of an object are read up to its closing brace. -/
theorem readFields_render (each : ∀ f ∈ fields, ReadsBack f.2) (ne : fields ≠ []) (fuel : Nat)
    (enough : 2 * (commaSeparated (renderFields fields)).length < fuel) (rest : List Char) :
    readFields fuel (commaSeparated (renderFields fields) ++ '}' :: rest) = some (fields, rest) := by
  induction fields generalizing fuel with
  | nil => exact absurd rfl ne
  | cons f fields ih =>
    obtain ⟨key, v⟩ := f
    obtain ⟨fuel, rfl⟩ := Nat.exists_eq_succ_of_ne_zero (Nat.ne_of_gt (Nat.zero_lt_of_lt enough))
    have first : ReadsBack v := each (key, v) List.mem_cons_self
    cases fields with
    | nil =>
      simp only [renderFields, commaSeparated, List.length_append, List.length_cons] at enough ⊢
      exact (readFields_step key (first fuel _ (by omega) (.inr ⟨_, _, rfl, by simp⟩))).1 rfl
    | cons g fields =>
      obtain ⟨key', w⟩ := g
      simp only [renderFields, commaSeparated_cons, List.length_append, List.length_cons] at enough
      have others := ih (fun f hf => each f (List.mem_cons_of_mem _ hf)) (by simp) fuel
        (by simp only [renderFields]; omega)
      rw [renderFields, renderFields, commaSeparated_cons, List.append_assoc, List.cons_append,
        (readFields_step key (first fuel _ (by omega) (.inr ⟨_, _, rfl, by simp⟩))).2 rfl]
      rw [renderFields] at others
      rw [others]
      rfl

/-- Fields whose keys are all different are kept as they are. -/
theorem insertAll_of_nodup {o : JsonObject} (keys : ((o ++ fields).map (·.1)).Nodup) :
    JsonObject.insertAll o fields = o ++ fields := by
  induction fields generalizing o with
  | nil => exact (List.append_nil o).symm
  | cons f fields ih =>
    have fresh : JsonObject.hasKey o f.1 = false := by
      rw [JsonObject.hasKey, List.any_eq_false]
      intro g hg same
      rw [List.map_append, List.nodup_append] at keys
      exact keys.2.2 g.1 (List.mem_map_of_mem hg) f.1 (by simp) (beq_iff_eq.1 same)
    have step : JsonObject.insert o f.1 f.2 = o ++ [f] := by simp [JsonObject.insert, fresh]
    have row : o ++ f :: fields = (o ++ [f]) ++ fields := by simp
    rw [row] at keys ⊢
    rw [← ih keys, JsonObject.insertAll, List.foldl_cons, step]
    rfl

section Dispatch
variable {c : Char} (fuel : Nat) (cs : List Char)

theorem readValue_number (start : c.isDigit = true ∨ c = '-') :
    readValue (fuel + 1) (c :: cs) =
      (readNumber (c :: cs)).map fun (n, rest) => (.number n, rest) := by
  rw [readValue, skipBlanks_of_head (isBlank_of_start start)]
  split
  case h_7 => rfl
  all_goals
    rename_i same
    exact absurd (List.cons.inj same).1 (ne_of_start start (by decide) (by decide))

theorem readValue_array (blank : isBlank c = false) (ne : c ≠ ']') :
    readValue (fuel + 1) ('[' :: c :: cs) =
      (readItems fuel (c :: cs)).map fun (vs, rest) => (.array vs, rest) := by
  rw [readValue, skipBlanks_of_head (by decide)]
  simp only [skipBlanks_of_head blank]
  split
  · rename_i same
    exact absurd (List.cons.inj same).1 ne
  · rw [Option.map_eq_bind]
    rfl

theorem readValue_object (blank : isBlank c = false) (ne : c ≠ '}') :
    readValue (fuel + 1) ('{' :: c :: cs) =
      (readFields fuel (c :: cs)).map fun (fs, rest) =>
        (.object (JsonObject.insertAll [] fs), rest) := by
  rw [readValue, skipBlanks_of_head (by decide)]
  simp only [skipBlanks_of_head blank]
  split
  · rename_i same
    exact absurd (List.cons.inj same).1 ne
  · rw [Option.map_eq_bind]
    rfl

end Dispatch

/-- The first step of fuel is spent on the value itself. -/
theorem exists_fuel (h : Exact v) {fuel : Nat} (enough : 2 * v.render.length ≤ fuel) :
    ∃ left, fuel = left + 1 ∧ 2 * v.render.length ≤ left + 1 := by
  obtain ⟨c, cs, eq, -⟩ := h.head
  have some : 0 < v.render.length := by rw [eq]; exact Nat.succ_pos _
  exact ⟨fuel - 1, by omega, by omega⟩

/-- The items of an array are read back, and so is the array. -/
theorem readsBack_array (each : ∀ v ∈ items, Exact v) (ih : ∀ v ∈ items, ReadsBack v) :
    ReadsBack (.array items) := by
  intro fuel rest enough _
  obtain ⟨fuel, rfl, enough⟩ := exists_fuel (.array each) enough
  cases items with
  | nil => rfl
  | cons v items =>
    simp only [render, List.length_append, List.length_cons] at enough
    have read := readItems_render ih (by simp) fuel (by omega) rest
    obtain ⟨c, cs, eq, blank, apart, -⟩ : ∃ c cs,
        commaSeparated (renderItems (v :: items)) ++ ']' :: rest = c :: cs ∧
          isBlank c = false ∧ c ≠ ']' ∧ c ≠ '}' := by
      obtain ⟨c, cs, eq, shape⟩ := (each v List.mem_cons_self).head
      cases items <;> simp only [renderItems, commaSeparated, eq] <;> exact ⟨c, _, rfl, shape⟩
    have row : render (.array (v :: items)) ++ rest =
        '[' :: (commaSeparated (renderItems (v :: items)) ++ ']' :: rest) := by simp [render]
    rw [row, eq, readValue_array fuel cs blank apart, ← eq, read]
    rfl

/-- The values of an object are read back, and so is the object. -/
theorem readsBack_object (keys : (fields.map (·.1)).Nodup) (each : ∀ f ∈ fields, Exact f.2)
    (ih : ∀ f ∈ fields, ReadsBack f.2) : ReadsBack (.object fields) := by
  intro fuel rest enough _
  obtain ⟨fuel, rfl, enough⟩ := exists_fuel (.object keys each) enough
  cases fields with
  | nil => rfl
  | cons f fields =>
    obtain ⟨key, v⟩ := f
    simp only [render, List.length_append, List.length_cons] at enough
    have read := readFields_render ih (by simp) fuel (by omega) rest
    obtain ⟨cs, eq⟩ : ∃ cs,
        commaSeparated (renderFields ((key, v) :: fields)) ++ '}' :: rest = '"' :: cs := by
      cases fields <;> exact ⟨_, rfl⟩
    have row : render (.object ((key, v) :: fields)) ++ rest =
        '{' :: (commaSeparated (renderFields ((key, v) :: fields)) ++ '}' :: rest) := by
      simp [render]
    have kept := insertAll_of_nodup (o := []) keys
    rw [row, eq, readValue_object fuel cs (by decide) (by decide), ← eq, read, Option.map_some]
    simp only [kept, List.nil_append]

/-- Every exact value is read back. -/
theorem Exact.readsBack (h : Exact v) : ReadsBack v := by
  induction h with
  | null =>
    intro fuel rest enough _
    obtain ⟨fuel, rfl, -⟩ := exists_fuel .null enough
    rfl
  | bool b =>
    intro fuel rest enough _
    obtain ⟨fuel, rfl, -⟩ := exists_fuel (.bool b) enough
    cases b <;> rfl
  | @whole n lo hi =>
    intro fuel rest enough ends
    obtain ⟨fuel, rfl, -⟩ := exists_fuel (.whole lo hi) enough
    obtain ⟨c, cs, eq, start⟩ := text_head n
    have read := readNumber_whole lo hi ends
    rw [eq, List.cons_append] at read
    rw [render, eq, List.cons_append, readValue_number fuel _ start, read]
    rfl
  | string s =>
    intro fuel rest enough _
    obtain ⟨fuel, rfl, -⟩ := exists_fuel (.string s) enough
    have tail := readString_tail s rest
    have row : render (.string s) ++ rest =
        '"' :: (s.toList.flatMap escapeChar ++ '"' :: rest) := by simp [render, quote]
    rw [row, readValue, skipBlanks_of_head (by decide)]
    simp only [tail, Option.bind_eq_bind, Option.bind_some, String.ofList_toList]
  | array each ih => exact readsBack_array each ih
  | object keys each ih => exact readsBack_object keys each ih

end Values

/-- The written form of an exact value denotes the value. -/
theorem parse?_render {v : Json} (h : Exact v) : parse? v.render = some v := by
  have read := h.readsBack (2 * v.render.length + 1) [] (Nat.le_succ _) (.inl rfl)
  rw [List.append_nil] at read
  rw [parse?, read]
  rfl

end Json

end ComponentEdit
