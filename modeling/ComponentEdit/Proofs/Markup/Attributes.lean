import ComponentEdit.Markup.Render
import ComponentEdit.Proofs.Text.Search
import Mathlib.Data.List.TakeWhile

/-!
# The attributes of a tag

An attribute is a name, bare or with a value between quotes. `readAttributes` reads them off the
text of a tag, with blanks between them, up to the `>` that ends the tag; a value goes up to the
next quote, whatever else it holds. What was written is read back (`readAttributes_spaced`), if the
names are names and no value holds a quote; a value that was read never holds one
(`quotable_of_readAttributes`).
-/

namespace ComponentEdit.Markup
set_option autoImplicit false

/-- An attribute as it stands in a tag. -/
structure Attribute where
  name : Text
  /-- What stands between the quotes; nothing for a bare name. -/
  value : Option Text := none
deriving DecidableEq, Repr

/-- A character that can stand in the name of an attribute. -/
def isNameChar (c : Char) : Bool := !(c.isWhitespace || ['"', '\'', '=', '>', '/'].contains c)

/-- A name that an attribute can have. -/
def IsName (n : Text) : Prop := n ≠ [] ∧ ∀ c ∈ n, isNameChar c = true

instance (n : Text) : Decidable (IsName n) :=
  decidable_of_iff (n ≠ [] ∧ n.all isNameChar = true) (by rw [IsName, List.all_eq_true])

namespace Attribute

/-- The written form. -/
def text (a : Attribute) : Text :=
  match a.value with
  | none => a.name
  | some v => a.name ++ ['=', '"'] ++ v ++ ['"']

/-- The attribute that a field of an object is written as. -/
def ofField (f : String × Json) : Attribute :=
  { name := f.1.toList
    value := match f.2 with
      | .bool true => none
      | .string s => some s.toList
      | v => some v.render }

/-- A value that can stand between quotes. -/
def Quotable (a : Attribute) : Prop := ∀ v ∈ a.value, '"' ∉ v

instance (a : Attribute) : Decidable a.Quotable :=
  decidable_of_iff (a.value.all (!·.contains '"') = true) (by simp [Quotable, Option.all_eq_true])

theorem text_ofField (f : String × Json) : (ofField f).text = writeAttribute f.1 f.2 := by
  obtain ⟨key, v⟩ := f
  cases v with
  | bool b => cases b <;> rfl
  | _ => rfl

theorem text_ne_nil {a : Attribute} (h : a.name ≠ []) : a.text ≠ [] := by
  unfold text
  split <;> simp [h]

end Attribute

/-- Read what stands behind a name: a value up to the next quote, if there is one. -/
def readValue? : Text → Option (Option Text × Text)
  | '=' :: '"' :: t =>
    match t.dropWhile (· != '"') with
    | [] => none
    | _ :: rest => some (some (t.takeWhile (· != '"')), rest)
  | t => some (none, t)

/-- Read one attribute and leave what follows it. -/
def readAttribute? (t : Text) : Option (Attribute × Text) :=
  if t.takeWhile isNameChar = [] then none
  else (readValue? (t.dropWhile isNameChar)).map fun (value, rest) =>
    (⟨t.takeWhile isNameChar, value⟩, rest)

/-- Whether an attribute can end in front of a text. -/
def endsAttribute : Text → Bool
  | [] => true
  | c :: _ => c == ' ' || c == '>'

section Reading
variable {t rest : Text} {a : Attribute} {as : List Attribute} {value : Option Text}

theorem length_of_readValue? (h : readValue? t = some (value, rest)) : rest.length ≤ t.length := by
  unfold readValue? at h
  split at h
  case h_1 t =>
    split at h
    case h_1 => cases h
    case h_2 left =>
      cases h
      have shorter := (List.dropWhile_suffix (l := t) (· != '"')).length_le
      rw [left] at shorter
      simp only [List.length_cons] at shorter ⊢
      omega
  case h_2 =>
    cases h
    exact Nat.le_refl _

theorem length_of_readAttribute? (h : readAttribute? t = some (a, rest)) :
    rest.length < t.length := by
  rw [readAttribute?, Option.ite_none_left_eq_some] at h
  obtain ⟨name, h⟩ := h
  obtain ⟨⟨value, left⟩, read, same⟩ := Option.map_eq_some_iff.1 h
  cases same
  have le := length_of_readValue? read
  have parts := congrArg List.length (List.takeWhile_append_dropWhile (p := isNameChar) (l := t))
  have pos := List.length_pos_iff.2 name
  rw [List.length_append] at parts
  omega

end Reading

/-- Read attributes with blanks between them, up to the end of the tag or of the text. -/
def readAttributes : Text → Option (List Attribute × Text)
  | [] => some ([], [])
  | c :: t =>
    if c = ' ' then readAttributes t
    else if c = '>' then some ([], c :: t)
    else
      match _read : readAttribute? (c :: t) with
      | none => none
      | some (a, rest) =>
        if endsAttribute rest then (readAttributes rest).map fun (as, rest) => (a :: as, rest)
        else none
termination_by t => t.length
decreasing_by
  · exact Nat.lt_succ_self _
  · exact length_of_readAttribute? ‹_›

/-- Attributes, each behind a blank. -/
def spaced (as : List Attribute) : Text := as.flatMap fun a => ' ' :: a.text

section RoundTrip
variable {t rest : Text} {a : Attribute} {as : List Attribute}

theorem readAttributes_blank (t : Text) : readAttributes (' ' :: t) = readAttributes t := by
  rw [readAttributes, if_pos rfl]

theorem readAttributes_close (t : Text) : readAttributes ('>' :: t) = some ([], '>' :: t) := by
  rw [readAttributes, if_neg (by decide), if_pos rfl]

/-- A name goes up to where its attribute can end. -/
theorem takeWhile_of_ends (h : endsAttribute t = true) : t.takeWhile isNameChar = [] := by
  cases t with
  | nil => rfl
  | cons c t =>
    have no : isNameChar c = false := by
      simp only [endsAttribute, Bool.or_eq_true, beq_iff_eq] at h
      rcases h with rfl | rfl <;> decide
    simp [no]

theorem readValue?_of_ends (h : endsAttribute t = true) : readValue? t = some (none, t) := by
  unfold readValue?
  split
  · simp [endsAttribute] at h
  · rfl

/-- A value that holds no quote is read up to its end. -/
theorem readValue?_quoted {v : Text} (h : '"' ∉ v) (rest : Text) :
    readValue? (['=', '"'] ++ v ++ ['"'] ++ rest) = some (some v, rest) := by
  have all := Text.forall_bne h
  simp [readValue?, List.takeWhile_append_of_pos all, List.dropWhile_append_of_pos all]

/-- What was written is read back. -/
theorem readAttribute?_text (name : IsName a.name) (quotable : a.Quotable)
    (ends : endsAttribute rest = true) : readAttribute? (a.text ++ rest) = some (a, rest) := by
  have behind : ∀ t, t.takeWhile isNameChar = [] → readValue? t = some (a.value, rest) →
      readAttribute? (a.name ++ t) = some (a, rest) := fun t stops value => by
    have rest : t.dropWhile isNameChar = t := by
      simpa [stops] using List.takeWhile_append_dropWhile (p := isNameChar) (l := t)
    rw [readAttribute?, List.takeWhile_append_of_pos name.2, List.dropWhile_append_of_pos name.2,
      stops, rest, List.append_nil, if_neg name.1, value]
    rfl
  unfold Attribute.text
  cases value : a.value with
  | none => exact behind rest (takeWhile_of_ends ends) (value ▸ readValue?_of_ends ends)
  | some v =>
    simp only [List.append_assoc]
    refine behind _ (by simp [isNameChar]) ?_
    rw [value]
    simpa using readValue?_quoted (quotable v value) rest

/-- A value that was read holds no quote. -/
theorem quotable_of_readAttribute? (h : readAttribute? t = some (a, rest)) : a.Quotable := by
  rw [readAttribute?, Option.ite_none_left_eq_some] at h
  obtain ⟨⟨value, left⟩, read, same⟩ := Option.map_eq_some_iff.1 h.2
  cases same
  rintro v (rfl : value = some v)
  unfold readValue? at read
  split at read
  case h_1 =>
    split at read
    case h_1 => cases read
    case h_2 =>
      cases read
      intro mem
      simpa using List.mem_takeWhile_imp mem
  case h_2 => cases read

theorem endsAttribute_spaced (as : List Attribute) (ends : endsAttribute rest = true) :
    endsAttribute (spaced as ++ rest) = true := by
  cases as with
  | nil => exact ends
  | cons => rfl

/-- An attribute in front of others. -/
theorem readAttributes_text (name : IsName a.name) (quotable : a.Quotable)
    (ends : endsAttribute t = true) :
    readAttributes (a.text ++ t) = (readAttributes t).map fun (as, rest) => (a :: as, rest) := by
  have read := readAttribute?_text name quotable ends
  obtain ⟨c, n, hc⟩ := List.exists_cons_of_ne_nil name.1
  have isName : isNameChar c = true := name.2 c (by simp [hc])
  obtain ⟨u, hu⟩ : ∃ u, a.text ++ t = c :: u := by
    unfold Attribute.text
    cases a.value <;> simp [hc]
  rw [hu] at read ⊢
  rw [readAttributes, if_neg (by rintro rfl; cases isName), if_neg (by rintro rfl; cases isName)]
  split
  case h_1 none => simp [none] at read
  case h_2 b left some =>
    obtain ⟨rfl, rfl⟩ : b = a ∧ left = t := by simpa [some] using read
    rw [if_pos ends]

/-- **Attributes that were written are read back**, in order, in front of what else is read. -/
theorem readAttributes_spaced (h : ∀ a ∈ as, IsName a.name ∧ a.Quotable)
    (ends : endsAttribute rest = true) : readAttributes (spaced as ++ rest) =
      (readAttributes rest).map fun (others, rest) => (as ++ others, rest) := by
  induction as with
  | nil => simp [spaced]
  | cons a as ih =>
    rw [List.forall_mem_cons] at h
    have first := readAttributes_text h.1.1 h.1.2 (endsAttribute_spaced as ends)
    rw [ih h.2, Option.map_map] at first
    simpa [spaced, readAttributes_blank, Function.comp_def] using first

/-- Values that were read hold no quotes. -/
theorem quotable_of_readAttributes (h : readAttributes t = some (as, rest)) :
    ∀ a ∈ as, a.Quotable := by
  fun_induction readAttributes t generalizing as with
  | case1 =>
    cases h
    simp
  | case2 t ih => exact ih h
  | case3 =>
    cases h
    simp
  | case4 => cases h
  | case5 c t blank close a left read ends ih =>
    obtain ⟨⟨as, behind⟩, others, same⟩ := Option.map_eq_some_iff.1 h
    cases same
    exact List.forall_mem_cons.2 ⟨quotable_of_readAttribute? read, ih others⟩
  | case6 => cases h

end RoundTrip

section Writing
variable {as : List Attribute} {rows : List (List Attribute)} {name content p : Text}
  {ps : List Text}

/-- Attributes with blanks between them. -/
def inline (as : List Attribute) : Text := [' '].intercalate (as.map Attribute.text)

theorem writeAttributes_eq (attrs : JsonObject) (skip : List String) :
    writeAttributes attrs skip =
      inline ((attrs.filter fun f => !skip.contains f.1).map .ofField) := by
  simp [writeAttributes, inline, Function.comp_def, Attribute.text_ofField]

theorem intercalate_cons (p : Text) (ps : List Text) :
    [' '].intercalate (p :: ps) = p ++ ps.flatMap (' ' :: ·) := by
  induction ps generalizing p with
  | nil => simp
  | cons q ps ih => simp [List.intercalate_cons_cons, ih]

theorem blank_intercalate (ne : ps ≠ []) : ' ' :: [' '].intercalate ps = ps.flatMap (' ' :: ·) := by
  obtain ⟨p, ps, rfl⟩ := List.exists_cons_of_ne_nil ne
  rw [intercalate_cons, List.flatMap_cons, List.cons_append]

theorem spaced_eq (as : List Attribute) :
    spaced as = (as.map Attribute.text).flatMap (' ' :: ·) := by
  simp [spaced, List.flatMap_map]

/-- What is in a row of attributes, but for the blanks, is in one of them. -/
theorem mem_writeAttributes_iff {c : Char} (ne : c ≠ ' ') (attrs : JsonObject)
    (skip : List String) : c ∈ writeAttributes attrs skip ↔
      ∃ f ∈ attrs, f.1 ∉ skip ∧ c ∈ writeAttribute f.1 f.2 := by
  have joined : ∀ ps : List Text, c ∈ [' '].intercalate ps ↔ ∃ p ∈ ps, c ∈ p := by
    rintro (_ | ⟨p, ps⟩)
    · simp
    · simp [intercalate_cons, ne]
  rw [writeAttributes, joined]
  constructor
  · rintro ⟨p, hp, hc⟩
    obtain ⟨f, hf, rfl⟩ := List.mem_map.1 hp
    exact ⟨f, by simpa [hc] using hf⟩
  · rintro ⟨f, hf, kept, hc⟩
    exact ⟨_, List.mem_map.2 ⟨f, by simp [hf, kept], rfl⟩, hc⟩

/-- Rows of attributes, with those left out that are empty. -/
theorem flatMap_rows (named : ∀ as ∈ rows, ∀ a ∈ as, a.name ≠ []) :
    ((rows.map inline).filter fun p => !p.isEmpty).flatMap (' ' :: ·) = spaced rows.flatten := by
  induction rows with
  | nil => rfl
  | cons as rows ih =>
    rw [List.forall_mem_cons] at named
    have rest := ih named.2
    cases as with
    | nil => simpa [inline] using rest
    | cons a as =>
      have ne : inline (a :: as) ≠ [] := by
        have first := Attribute.text_ne_nil (named.1 a List.mem_cons_self)
        simp [inline, intercalate_cons, first]
      have row : ' ' :: inline (a :: as) = spaced (a :: as) := by
        rw [inline, blank_intercalate (by simp), ← spaced_eq]
      rw [List.map_cons, List.filter_cons_of_pos (by simpa using ne), List.flatMap_cons, row, rest,
        List.flatten_cons, spaced, spaced, ← List.flatMap_append, spaced]

/-- The tag of an element whose parts are rows of attributes holds all of them. -/
theorem element_rows (named : ∀ as ∈ rows, ∀ a ∈ as, a.name ≠ []) (name content : Text) :
    ∃ tag, element name (rows.map inline) content = '<' :: (name ++ tag) ∧
      readAttributes tag = readAttributes (spaced rows.flatten ++
        '>' :: '\n' :: (content ++ '\n' :: '<' :: '/' :: (name ++ ['>']))) := by
  have shown := flatMap_rows named
  generalize hps : (rows.map inline).filter (fun p => !p.isEmpty) = ps at shown
  by_cases unnamed : name = []
  · subst unnamed
    refine ⟨[' '].intercalate ps ++ '>' :: '\n' :: (content ++ ['\n', '<', '/', '>']),
      by simp [element, hps], ?_⟩
    cases ps with
    | nil => simp [← shown]
    | cons p ps =>
      -- A tag without a name starts with its first attribute, where a blank makes no difference.
      rw [← readAttributes_blank, ← List.cons_append, blank_intercalate (by simp), shown]
      rfl
  · refine ⟨spaced rows.flatten ++
      '>' :: '\n' :: (content ++ '\n' :: '<' :: '/' :: (name ++ ['>'])), ?_, rfl⟩
    simp [element, unnamed, hps, intercalate_cons, shown]

end Writing

end ComponentEdit.Markup
