import ComponentEdit.Proofs.Json.Reading
import ComponentEdit.Proofs.SourceMap.Quantities
import ComponentEdit.SourceMap.Basic

/-!
# Source maps read back

`SourceMap.decode?` reads version 3 of the format as a consumer of maps does: the mappings are
parted into lines at the semicolons and into segments at the commas, a segment holds one, four or
five numbers, each the difference to the last one of its kind, and the generated column starts anew
on each line. What the writer has written is decoded to the tokens it was written from, with the
source and the names that their numbers stand for, as long as they stand line by line
(`SourceMap.decode?_render`).
-/

namespace ComponentEdit
set_option autoImplicit false

namespace SourceMap

/-- A mapping of a decoded map: a caret of the generated text, the source with the caret in it that
it comes from, and a name. -/
structure Mapping where
  generated : Caret
  place : Option (String × Caret)
  name : Option Text
deriving DecidableEq, Repr

/-- A decoded map. -/
structure Decoded where
  file : Option String
  sources : List String
  /-- The texts of the sources, in their order, as far as they are embedded. -/
  contents : List (Option Text)
  mappings : List Mapping
deriving DecidableEq, Repr

/-- The mapping of a token, in a map of one source. -/
def Mapping.ofToken (source : String) (t : Token) : Mapping :=
  ⟨t.generated, some (source, t.source), t.name⟩

/-- The last number of each kind. -/
structure Running where
  generated : Caret := .origin
  source : Nat := 0
  place : Caret := .origin
  name : Nat := 0

/-- The running numbers that the writer holds, in a map of one source. -/
def Cursor.running (c : Cursor) : Running := ⟨c.generated, 0, c.source, c.name⟩

/-- A number by its difference to the last one. -/
def follow? (last : Nat) (difference : Int) : Option Nat :=
  let now := last + difference
  if now < 0 then none else some now.toNat

section Reading
variable (sources : List String) (names : List Text)

/-- The mapping of a segment, by its numbers, and the numbers that run on behind it. -/
def readSegment (last : Running) : List Int → Option (Mapping × Running)
  | [] => none
  | column :: rest => do
    let here : Caret := ⟨last.generated.line, ← follow? last.generated.column column⟩
    match rest with
    | [] => some (⟨here, none, none⟩, { last with generated := here })
    | source :: line :: column :: rest => do
      let source ← follow? last.source source
      let place : Caret := ⟨← follow? last.place.line line, ← follow? last.place.column column⟩
      let origin ← sources[source]?
      match rest with
      | [] =>
        some (⟨here, some (origin, place), none⟩, { last with generated := here, source, place })
      | [name] => do
        let name ← follow? last.name name
        let text ← names[name]?
        some (⟨here, some (origin, place), some text⟩, ⟨here, source, place, name⟩)
      | _ => none
    | _ => none

/-- The mappings of the segments of a line. Nothing between two commas is no segment. -/
def readLine : Running → List Text → Option (List Mapping × Running)
  | last, [] => some ([], last)
  | last, segment :: segments =>
    if segment.isEmpty then readLine last segments
    else do
      let (mapping, next) ← readSegment sources names last (← Vlq.decode? segment)
      let (mappings, next) ← readLine next segments
      some (mapping :: mappings, next)

/-- The mappings of lines, each of which starts at the first generated column. -/
def readLines : Running → List Text → Option (List Mapping)
  | _, [] => some []
  | last, line :: lines => do
    let (mappings, next) ← readLine sources names last (line.splitOn ',')
    let rest ← readLines { next with generated := next.generated.nextLine } lines
    some (mappings ++ rest)

/-- The mappings of a text from some running numbers on. -/
def readFrom (last : Running) (t : Text) : Option (List Mapping) :=
  readLines sources names last (t.splitOn ';')

end Reading

/-- What a map in its written form says. -/
def decode? (t : Text) : Option Decoded := do
  let fields ← (← Json.parse? t).object?
  let version ← JsonObject.field fields "version" Json.natural?
  let file ← JsonObject.field? fields "file" Json.string?
  let sources ← JsonObject.field fields "sources" (Json.list? Json.string?)
  let contents ←
    JsonObject.fieldOr fields "sourcesContent" [] (Json.list? (Json.nullable Json.text?))
  let names ← JsonObject.field fields "names" (Json.list? Json.text?)
  let mappings ← readFrom sources names {} (← JsonObject.field fields "mappings" Json.text?)
  if version = 3 then some { file, sources, contents, mappings } else none

section Mappings
variable {sources : List String} {names : List Text} {last : Running}

/-- A semicolon leads to the next line. -/
theorem readFrom_semicolon (t : Text) : readFrom sources names last (';' :: t) =
    readFrom sources names { last with generated := last.generated.nextLine } t := by
  rw [readFrom, List.splitOn_cons_eq_if_modifyHead, if_pos (by decide), readLines]
  simp only [List.splitOn_nil, readLine, List.isEmpty_nil, if_true, Option.bind_eq_bind,
    Option.bind_some, List.nil_append]
  exact Option.bind_fun_some _

theorem readFrom_semicolons (k : Nat) (t : Text) :
    readFrom sources names last (List.replicate k ';' ++ t) =
      readFrom sources names { last with generated :=
        if 0 < k then ⟨last.generated.line + k, 0⟩ else last.generated } t := by
  induction k generalizing last with
  | zero => rfl
  | succ k ih =>
    rw [List.replicate_succ, List.cons_append, readFrom_semicolon, ih]
    by_cases more : 0 < k
    · have line : last.generated.line + 1 + k = last.generated.line + (k + 1) := by omega
      simp [more, Caret.nextLine, line]
    · obtain rfl : k = 0 := by omega
      rfl

/-- The first line of a text. -/
theorem exists_firstLine (t : Text) : ∃ line lines, t.splitOn ';' = line :: lines :=
  List.exists_cons_of_ne_nil (List.splitOn_ne_nil _ _)

/-- A comma leads to the next segment. -/
theorem readFrom_comma (t : Text) :
    readFrom sources names last (',' :: t) = readFrom sources names last t := by
  obtain ⟨line, lines, eq⟩ := exists_firstLine t
  have split : (',' :: line).splitOn ',' = [] :: line.splitOn ',' := by
    rw [List.splitOn_cons_eq_if_modifyHead, if_pos (by decide)]
  rw [readFrom, readFrom, List.splitOn_cons_eq_if_modifyHead, if_neg (by decide), eq,
    List.modifyHead_cons, readLines, readLines, split, readLine]
  rfl

/-- A text without the separator goes in front of the first part. -/
theorem splitOn_append {separator : Char} {s : Text} (free : separator ∉ s) (t : Text) :
    (s ++ t).splitOn separator = (t.splitOn separator).modifyHead (s ++ ·) := by
  induction s with
  | nil =>
    obtain ⟨part, parts, eq⟩ := List.exists_cons_of_ne_nil (List.splitOn_ne_nil separator t)
    rw [List.nil_append, eq]
    rfl
  | cons c s ih =>
    rw [List.mem_cons, not_or] at free
    rw [List.cons_append, List.splitOn_cons_eq_if_modifyHead,
      if_neg (by simpa using Ne.symm free.1), ih free.2, List.modifyHead_modifyHead]
    rfl

/-- A text goes on with a new segment or a new line, or it ends. -/
def Apart (t : Text) : Prop := t = [] ∨ ∃ c cs, t = c :: cs ∧ (c = ';' ∨ c = ',')

/-- What goes on with a new segment has nothing in front of it in its line. -/
theorem Apart.exists_segments {t : Text} (h : Apart t) : ∃ line lines segments,
    t.splitOn ';' = line :: lines ∧ line.splitOn ',' = [] :: segments := by
  rcases h with rfl | ⟨c, cs, rfl, rfl | rfl⟩
  · exact ⟨[], [], [], rfl, rfl⟩
  · exact ⟨[], cs.splitOn ';', [],
      by rw [List.splitOn_cons_eq_if_modifyHead, if_pos (by decide)], rfl⟩
  · obtain ⟨line, lines, eq⟩ := exists_firstLine cs
    refine ⟨',' :: line, lines, line.splitOn ',', ?_, ?_⟩
    · rw [List.splitOn_cons_eq_if_modifyHead, if_neg (by decide), eq, List.modifyHead_cons]
    · rw [List.splitOn_cons_eq_if_modifyHead, if_pos (by decide)]

/-- A segment is read up to what sets it apart. -/
theorem readFrom_segment {segment t : Text} (ne : segment ≠ []) (semicolon : ';' ∉ segment)
    (comma : ',' ∉ segment) (apart : Apart t) {numbers : List Int} {mapping : Mapping}
    {next : Running} (digits : Vlq.decode? segment = some numbers)
    (read : readSegment sources names last numbers = some (mapping, next)) :
    readFrom sources names last (segment ++ t) =
      (readFrom sources names next t).map (mapping :: ·) := by
  obtain ⟨line, lines, segments, inLines, inLine⟩ := apart.exists_segments
  have filled : segment.isEmpty = false := List.isEmpty_eq_false_iff.2 ne
  rw [readFrom, readFrom, splitOn_append semicolon, inLines, List.modifyHead_cons, readLines,
    readLines, splitOn_append comma, inLine, List.modifyHead_cons, List.append_nil, readLine,
    readLine, filled, digits]
  simp only [Bool.false_eq_true, if_false, List.isEmpty_nil, if_true, Option.bind_eq_bind,
    Option.bind_some, read]
  cases readLine sources names next segments with
  | none => rfl
  | some p =>
    obtain ⟨mappings, running⟩ := p
    simp only [Option.bind_some, List.cons_append]
    cases readLines sources names { running with generated := running.generated.nextLine } lines <;>
      rfl

end Mappings

section Writing
variable {names : List Text} {last : Cursor} {t : Token} {ts : List Token}

theorem follow?_sub (last now : Nat) : follow? last ((now : Int) - last) = some now := by
  have value : (last : Int) + (now - last) = now := by omega
  simp [follow?, value]

/-- The numbers of a token, each as the difference to the last one. -/
def numbersOf (names : List Text) (last : Cursor) (t : Token) : List Int :=
  [(t.generated.column : Int) - last.generated.column, 0, (t.source.line : Int) - last.source.line,
    (t.source.column : Int) - last.source.column] ++
    match t.name with
    | some n => [(names.idxOf n : Int) - last.name]
    | none => []

/-- The cursor behind a token. -/
def Cursor.behind (names : List Text) (last : Cursor) (t : Token) : Cursor :=
  ⟨t.generated, t.source, match t.name with
    | some n => names.idxOf n
    | none => last.name⟩

theorem decode?_segment (names : List Text) (last : Cursor) (t : Token) :
    Vlq.decode? (segment names last t) = some (numbersOf names last t) := by
  have done : Vlq.decode? [] = some [] := rfl
  cases name : t.name with
  | none =>
    simp only [segment, delta, numbersOf, name, List.append_nil, List.append_assoc]
    rw [← List.append_nil (Vlq.encode ((t.source.column : Int) - last.source.column))]
    simp only [Vlq.decode?_encode_append, done, Option.map_some]
    rfl
  | some n =>
    simp only [segment, delta, numbersOf, name, List.append_assoc]
    rw [← List.append_nil (Vlq.encode ((names.idxOf n : Int) - last.name))]
    simp only [Vlq.decode?_encode_append, done, Option.map_some]
    rfl

/-- A segment has digits only. -/
theorem not_mem_segment {c : Char} (foreign : c ∉ Vlq.alphabet) (names : List Text) (last : Cursor)
    (t : Token) : c ∉ segment names last t := by
  have free : ∀ n : Int, c ∉ Vlq.encode n := fun n => Vlq.not_mem_encode foreign
  cases name : t.name <;> simp [segment, delta, name, free]

theorem segment_ne_nil (names : List Text) (last : Cursor) (t : Token) :
    segment names last t ≠ [] := by
  simp [segment, delta, Vlq.encode_ne_nil]

/-- The numbers of a token in the line that the last numbers lead to stand for the token. -/
theorem readSegment_numbersOf (source : String) (line : last.generated.line = t.generated.line)
    (known : ∀ n, t.name = some n → n ∈ names) :
    readSegment [source] names last.running (numbersOf names last t) =
      some (Mapping.ofToken source t, (last.behind names t).running) := by
  have zero : follow? 0 0 = some 0 := rfl
  cases name : t.name with
  | none =>
    simp [readSegment, numbersOf, name, Cursor.running, follow?_sub, zero, line, Mapping.ofToken,
      Cursor.behind]
  | some n =>
    have found : names[names.idxOf n]? = some n := List.getElem?_idxOf (known n name)
    simp [readSegment, numbersOf, name, Cursor.running, follow?_sub, zero, line, Mapping.ofToken,
      Cursor.behind, found]

/-- What stands in front of the segment of a token. -/
def separator (isFirst : Bool) (last : Cursor) (t : Token) : List Char :=
  let skipped := t.generated.line - last.generated.line
  if 0 < skipped then List.replicate skipped ';' else if isFirst then [] else [',']

/-- The cursor in front of the segment of a token, in the line of the token. -/
def Cursor.ahead (last : Cursor) (t : Token) : Cursor :=
  if 0 < t.generated.line - last.generated.line
  then { last with generated := ⟨t.generated.line, 0⟩ } else last

theorem segments_cons (names : List Text) (isFirst : Bool) (last : Cursor) (t : Token)
    (ts : List Token) : segments names isFirst last (t :: ts) =
      separator isFirst last t ++ (segment names (last.ahead t) t ++
        segments names false ((last.ahead t).behind names t) ts) := by
  rw [segments, List.append_assoc]
  rfl

theorem line_ahead (le : last.generated.line ≤ t.generated.line) :
    (last.ahead t).generated.line = t.generated.line := by
  unfold Cursor.ahead
  split
  · rfl
  · omega

theorem readFrom_separator (sources : List String) (isFirst : Bool) (last : Cursor) (t : Token)
    (s : Text) : readFrom sources names last.running (separator isFirst last t ++ s) =
      readFrom sources names (last.ahead t).running s := by
  by_cases later : 0 < t.generated.line - last.generated.line
  · have line : last.generated.line + (t.generated.line - last.generated.line) =
        t.generated.line := by omega
    simp only [separator, Cursor.ahead, if_pos later, readFrom_semicolons, Cursor.running, line]
  · cases isFirst <;>
      simp [separator, Cursor.ahead, later, readFrom_comma]

/-- Segments behind another one are set apart from it. -/
theorem apart_segments (names : List Text) (last : Cursor) (ts : List Token) :
    Apart (segments names false last ts) := by
  cases ts with
  | nil => exact .inl rfl
  | cons t ts =>
    rw [segments_cons, separator]
    right
    cases skipped : t.generated.line - last.generated.line with
    | zero => exact ⟨',', _, rfl, .inr rfl⟩
    | succ k => exact ⟨';', _, rfl, .inl rfl⟩

/-- Tokens that stand line by line are read back from their segments. -/
theorem readFrom_segments (source : String) (isFirst : Bool) (last : Cursor)
    (ordered : ts.Pairwise fun x y => x.generated.line ≤ y.generated.line)
    (from_last : ∀ t ∈ ts, last.generated.line ≤ t.generated.line)
    (known : ∀ t ∈ ts, ∀ n, t.name = some n → n ∈ names) :
    readFrom [source] names last.running (segments names isFirst last ts) =
      some (ts.map (Mapping.ofToken source)) := by
  induction ts generalizing isFirst last with
  | nil => rfl
  | cons t ts ih =>
    rw [List.pairwise_cons] at ordered
    rw [List.forall_mem_cons] at from_last known
    have rest := ih false ((last.ahead t).behind names t) ordered.2 ordered.1 known.2
    rw [segments_cons, readFrom_separator,
      readFrom_segment (segment_ne_nil _ _ _) (not_mem_segment (by decide) _ _ _)
        (not_mem_segment (by decide) _ _ _) (apart_segments _ _ _) (decode?_segment _ _ _)
        (readSegment_numbersOf source (line_ahead from_last.1) known.1), rest]
    rfl

end Writing

section Maps
variable {α : Type}

theorem mem_foldl_seen [BEq α] [LawfulBEq α] {as seen : List α} {a : α} (h : a ∈ seen ∨ a ∈ as) :
    a ∈ as.foldl (fun seen a => if seen.contains a then seen else seen ++ [a]) seen := by
  induction as generalizing seen with
  | nil => simpa using h
  | cons b as ih =>
    rw [List.mem_cons] at h
    rw [List.foldl_cons]
    apply ih
    split
    · rename_i old
      rcases h with h | rfl | h
      · exact .inl h
      · exact .inl (List.contains_iff_mem.1 old)
      · exact .inr h
    · rw [List.mem_append, List.mem_singleton, or_assoc]
      exact h

/-- Going through a list loses no member. -/
theorem mem_distinct [BEq α] [LawfulBEq α] {as : List α} {a : α} (h : a ∈ as) : a ∈ distinct as :=
  mem_foldl_seen (.inr h)

theorem mem_names {m : SourceMap} {t : Token} (ht : t ∈ m.tokens) {n : Text}
    (name : t.name = some n) : n ∈ m.names :=
  mem_distinct (List.mem_filterMap.2 ⟨t, ht, name⟩)

/-- The mappings of a map whose tokens stand line by line are read back. -/
theorem readFrom_mappings {m : SourceMap}
    (ordered : m.tokens.Pairwise fun x y => x.generated.line ≤ y.generated.line) :
    readFrom [m.source] m.names {} m.mappings =
      some (m.tokens.map (Mapping.ofToken m.source)) :=
  readFrom_segments m.source true {} ordered (fun _ _ => Nat.zero_le _) fun _ ht _ => mem_names ht

/-- Items that are read back one by one are read back as a list. -/
theorem list?_map {read : Json → Option α} {write : α → Json}
    (back : ∀ a, read (write a) = some a) (as : List α) :
    Json.list? read (.array (as.map write)) = some as := by
  simp only [Json.list?, Json.array?, Option.bind_eq_bind, Option.bind_some]
  induction as with
  | nil => rfl
  | cons a as ih => simp [back, ih]

theorem text?_ofText (t : Text) : Json.text? (.ofText t) = some t := by
  simp [Json.text?, Json.string?, Json.ofText]

/-- The written form of a map is within the bounds of its reader. -/
theorem exact_toJson (m : SourceMap) : Json.Exact m.toJson := by
  have version : Json.Exact (.nat 3) := .whole (by decide) (by decide)
  have names : Json.Exact (.array (m.names.map .ofText)) := .array fun v hv => by
    obtain ⟨n, -, rfl⟩ := List.mem_map.1 hv
    exact .string _
  have source : Json.Exact (.array [.string m.source]) := .array (by simp [Json.Exact.string])
  have content : ∀ t, Json.Exact (.array [.ofText t]) := fun t =>
    .array (by simp [Json.ofText, Json.Exact.string])
  have mappings : Json.Exact (.ofText m.mappings) := .string _
  refine .object ?_ ?_
  · cases m.file <;> cases m.content <;> simp [JsonObject.whenSet]
  · cases m.file <;> cases m.content <;>
      simp [JsonObject.whenSet, version, names, source, content, mappings, Json.Exact.string]

/-- **A map is read back as what it was written from.** -/
theorem decode?_render {m : SourceMap}
    (ordered : m.tokens.Pairwise fun x y => x.generated.line ≤ y.generated.line) :
    decode? m.render = some
      { file := m.file
        sources := [m.source]
        contents := m.content.toList.map some
        mappings := m.tokens.map (Mapping.ofToken m.source) } := by
  have names : Json.list? Json.text? (.array (m.names.map .ofText)) = some m.names :=
    list?_map text?_ofText m.names
  have sources : Json.list? Json.string? (.array [.string m.source]) = some [m.source] := rfl
  have content : ∀ t, Json.list? (Json.nullable Json.text?) (.array [.ofText t]) =
      some [some t] := fun t => by
    simp [Json.list?, Json.array?, Json.nullable, Json.text?, Json.string?, Json.ofText]
  rw [decode?, render, Json.parse?_render m.exact_toJson, toJson]
  cases m.file <;> cases m.content <;>
    simp [Json.object?, JsonObject.whenSet, JsonObject.field, JsonObject.field?,
      JsonObject.fieldOr, JsonObject.get?, Json.nat, Json.natural?, Json.nullable, Json.string?,
      names, sources, content, text?_ofText, readFrom_mappings ordered]

end Maps

end SourceMap

end ComponentEdit
