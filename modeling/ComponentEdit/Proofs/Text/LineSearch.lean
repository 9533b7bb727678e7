import ComponentEdit.Proofs.Text.Encoding
import ComponentEdit.Proofs.Text.Locations

/-!
# Lines looked up and lines counted

A line is looked up among the offsets at which lines start, whatever search is used: `Searched`
says what a search in a sorted row may answer, and each of its answers leads to the line that holds
the offset (`Searched.lineOf_eq`). Counting the line breaks in front of the offset gives the same
line, at every offset (`line_locate`). At a boundary the column is counted as well, and both
counts give the caret that walking up to there reaches (`locate_eq_counts`).
-/

namespace ComponentEdit
set_option autoImplicit false

/-- What a search for a value in a sorted row may answer. -/
inductive Searched (row : List Nat) (v : Nat) : Except Nat Nat → Prop where
  /-- The value stands at this index. -/
  | hit {k : Nat} (here : row[k]? = some v) : Searched row v (.ok k)
  /-- The value stands nowhere, and put in at this index it keeps the row sorted. -/
  | miss {k : Nat} (absent : v ∉ row) (inside : k ≤ row.length)
      (fits : (row.take k ++ v :: row.drop k).Pairwise (· ≤ ·)) : Searched row v (.error k)

namespace Searched
variable {row : List Nat} {v : Nat} {answer : Except Nat Nat}

/-- The line that an answer stands for: the one that starts there, or the one that starts in front
of the place. -/
def lineOf : Except Nat Nat → Nat
  | .ok k => k
  | .error k => k - 1

/-- In a sorted row every search has an answer. -/
theorem exists_answer (sorted : row.Pairwise (· < ·)) (v : Nat) :
    ∃ answer, Searched row v answer := by
  induction row with
  | nil => exact ⟨.error 0, .miss (by simp) (Nat.le_refl _) (by simp)⟩
  | cons x row ih =>
    obtain ⟨first, sorted⟩ := List.pairwise_cons.1 sorted
    rcases Nat.lt_trichotomy v x with lt | rfl | lt
    · have ahead : ∀ y ∈ x :: row, v < y :=
        List.forall_mem_cons.2 ⟨lt, fun y hy => Nat.lt_trans lt (first y hy)⟩
      have rest : (x :: row).Pairwise (· ≤ ·) :=
        (List.pairwise_cons.2 ⟨first, sorted⟩).imp Nat.le_of_lt
      exact ⟨.error 0, .miss (fun h => Nat.lt_irrefl v (ahead v h)) (Nat.zero_le _)
        (.cons (fun y hy => Nat.le_of_lt (ahead y hy)) rest)⟩
    · exact ⟨.ok 0, .hit rfl⟩
    · obtain ⟨answer, found⟩ := ih sorted
      cases found with
      | @hit k here => exact ⟨.ok (k + 1), .hit here⟩
      | @miss k absent inside fits =>
        refine ⟨.error (k + 1), .miss ?_ (Nat.succ_le_succ inside) (.cons ?_ fits)⟩
        · simp [absent, Nat.ne_of_gt lt]
        · intro y hy
          rcases List.mem_append.1 hy with hy | hy
          · exact Nat.le_of_lt (first y (List.mem_of_mem_take hy))
          · rcases List.mem_cons.1 hy with rfl | hy
            · exact Nat.le_of_lt lt
            · exact Nat.le_of_lt (first y (List.mem_of_mem_drop hy))

theorem countP_of_hit (sorted : row.Pairwise (· < ·)) {k : Nat} (here : row[k]? = some v) :
    row.countP (· ≤ v) = k + 1 := by
  induction row generalizing k with
  | nil => simp at here
  | cons x row ih =>
    obtain ⟨first, sorted⟩ := List.pairwise_cons.1 sorted
    cases k with
    | zero =>
      obtain rfl : x = v := by simpa using here
      have beyond : row.countP (· ≤ x) = 0 := List.countP_eq_zero.2 (by simpa using first)
      rw [List.countP_cons_of_pos (by simp), beyond]
    | succ k =>
      have here : row[k]? = some v := here
      have upto : x ≤ v := Nat.le_of_lt (first v (List.mem_of_getElem? here))
      rw [List.countP_cons_of_pos (by simpa using upto), ih sorted here]

theorem countP_of_miss {k : Nat} (absent : v ∉ row) (inside : k ≤ row.length)
    (fits : (row.take k ++ v :: row.drop k).Pairwise (· ≤ ·)) : row.countP (· ≤ v) = k := by
  rw [List.pairwise_append, List.pairwise_cons] at fits
  obtain ⟨-, ⟨behind, -⟩, upto⟩ := fits
  have front : (row.take k).countP (· ≤ v) = (row.take k).length :=
    List.countP_eq_length.2 fun x hx => by simpa using upto x hx v List.mem_cons_self
  have back : (row.drop k).countP (· ≤ v) = 0 := by
    refine List.countP_eq_zero.2 fun x hx => ?_
    have other : v ≠ x := fun same => absent (same ▸ List.mem_of_mem_drop hx)
    simpa using Nat.lt_of_le_of_ne (behind x hx) other
  rw [← List.take_append_drop k row, List.countP_append, front, back,
    List.length_take_of_le inside, Nat.add_zero]

/-- The line of an answer is told by how many lines start up to the value. -/
theorem lineOf_eq (sorted : row.Pairwise (· < ·)) (found : Searched row v answer) :
    lineOf answer = row.countP (· ≤ v) - 1 := by
  cases found with
  | hit here => rw [countP_of_hit sorted here, lineOf, Nat.add_sub_cancel]
  | miss absent inside fits => rw [countP_of_miss absent inside fits, lineOf]

end Searched

namespace Text
variable {t : Text} {i : Nat}

/-- Lines start one behind the other. -/
theorem pairwise_breaksAfter (i : Nat) (t : Text) : (breaksAfter i t).Pairwise (· < ·) := by
  induction t generalizing i with
  | nil => exact .nil
  | cons c t ih =>
    unfold breaksAfter
    split
    · exact .cons (fun j hj => lt_of_mem_breaksAfter hj) (ih _)
    · exact ih _

theorem takeBytes_of_le (h : byteSize t ≤ i) : takeBytes t i = t := by
  obtain ⟨k, rfl⟩ := Nat.exists_eq_add_of_le h
  simpa [takeBytes] using takeBytes_append_add t [] k

theorem takeBytes_min (t : Text) (i : Nat) : takeBytes t (min i (byteSize t)) = takeBytes t i := by
  rcases Nat.le_total i (byteSize t) with inside | past
  · rw [Nat.min_eq_left inside]
  · rw [Nat.min_eq_right past, takeBytes_byteSize, takeBytes_of_le past]

/-- The part of a text in front of an offset counts no more than the whole. -/
theorem counts_takeBytes_le (t : Text) (i : Nat) :
    lineBreaks (takeBytes t i) ≤ lineBreaks t ∧ units (takeBytes t i) ≤ units t := by
  have breaks := lineBreaks_append (takeBytes t i) (dropBytes t i)
  have width := units_append (takeBytes t i) (dropBytes t i)
  rw [takeBytes_append_dropBytes] at breaks width
  omega

theorem units_lastLine_le (t : Text) : units (lastLine t) ≤ units t := by
  obtain ⟨q, s, rfl, single, shape⟩ := exists_last_line t
  rw [lastLine_line single shape, units_append]
  exact Nat.le_add_left _ _

/-- The bytes in front of an offset hold the line breaks of the characters in front of it, also
when the offset is inside of a character. -/
theorem count_take_bytes (t : Text) (i : Nat) :
    ((bytes t).take i).count (Char.toUInt8 '\n') = lineBreaks (takeBytes t i) := by
  induction t generalizing i with
  | nil => simp [takeBytes, lineBreaks]
  | cons c t ih =>
    have size : (String.utf8EncodeChar c).length = c.utf8Size := String.length_utf8EncodeChar c
    rw [bytes_cons, List.take_append, List.count_append, size, ih, takeBytes]
    by_cases fits : c.utf8Size ≤ i
    · rw [if_pos fits, List.take_of_length_le (size ▸ fits), count_utf8EncodeChar_break, lineBreaks,
        lineBreaks, List.count_cons, Nat.add_comm]
      simp
    · have none : ((String.utf8EncodeChar c).take i).count (Char.toUInt8 '\n') = 0 := by
        by_cases h : c = '\n'
        · -- A line break is one byte and has no inside.
          subst h
          obtain rfl : i = 0 := Nat.lt_one_iff.1 (Nat.lt_of_not_le fits)
          rfl
        · have part := (List.take_sublist i (String.utf8EncodeChar c)).count_le (Char.toUInt8 '\n')
          rw [count_utf8EncodeChar_break, if_neg h] at part
          exact Nat.le_zero.1 part
      rw [if_neg fits, Nat.sub_eq_zero_of_le (Nat.le_of_not_le fits), takeBytes_zero, none]
      rfl

end Text

namespace Caret

/-- Where a text ends: below all its line breaks, at the end of its last line. -/
theorem after_origin (t : Text) :
    origin.after t = ⟨Text.lineBreaks t, Text.units (Text.lastLine t)⟩ := by
  obtain ⟨q, s, rfl, single, shape⟩ := Text.exists_last_line t
  rw [after_append, Text.after_lines shape, after_of_not_mem _ single, Text.length_breaksAfter,
    Text.lastLine_line single shape, Text.lineBreaks_append, Text.lineBreaks_eq_zero_iff.2 single,
    Nat.add_zero, Nat.zero_add]

end Caret

namespace LineIndex
variable {t : Text} {i j : Nat}

theorem line_locate_eq_countP (index : LineIndex) (i : Nat) : (index.locate i).line =
    index.starts.countP (· ≤ min i index.text.byteSize) - 1 := by
  unfold locate
  dsimp only
  split <;> rfl

/-- The line of an offset is how many line breaks there are in front of it. -/
theorem line_locate (t : Text) (i : Nat) :
    ((ofText t).locate i).line = Text.lineBreaks (t.takeBytes i) := by
  have count := Text.countP_breaksAfter 0 t (min i t.byteSize)
  rw [Nat.zero_add, Text.takeBytes_min] at count
  rw [line_locate_eq_countP, ofText, List.countP_cons_of_pos (by simp), count, Nat.add_sub_cancel]

theorem locate_of_le (h : t.byteSize ≤ i) : (ofText t).locate i = (ofText t).locate t.byteSize := by
  simp only [locate, ofText, Nat.min_eq_right h, Nat.min_self]

/-- Looking a boundary up gives its two counts. -/
theorem locate_eq_counts (hi : Text.isBoundary t i = true) : (ofText t).locate i =
    ⟨Text.lineBreaks (t.takeBytes i), Text.units (Text.lastLine (t.takeBytes i))⟩ := by
  rw [locate_eq_caret hi, Text.caret, Caret.after_origin]

/-- Further boundaries are found further on. -/
theorem before_locate (hi : Text.isBoundary t i = true) (hj : Text.isBoundary t j = true)
    (lt : i < j) : ((ofText t).locate i).Before ((ofText t).locate j) := by
  rw [locate_eq_caret hi, locate_eq_caret hj]
  obtain ⟨p, m, q, rfl, rfl, rfl⟩ := Text.exists_parts hi hj (Nat.le_of_lt lt)
  have between : m ≠ [] := by
    rintro rfl
    simp at lt
  rw [Text.caret, Text.caret, Text.takeBytes_append_add, Text.takeBytes_byteSize_append,
    Text.takeBytes_byteSize_append, Caret.after_append]
  exact Caret.before_after _ between

theorem before_locate_iff (hi : Text.isBoundary t i = true) (hj : Text.isBoundary t j = true) :
    ((ofText t).locate i).Before ((ofText t).locate j) ↔ i < j := by
  refine ⟨fun before => ?_, before_locate hi hj⟩
  rcases Nat.lt_trichotomy i j with lt | rfl | lt
  · exact lt
  · exact absurd rfl before.ne
  · exact absurd rfl (before.trans (before_locate hj hi lt)).ne

theorem locate_inj (hi : Text.isBoundary t i = true) (hj : Text.isBoundary t j = true) :
    (ofText t).locate i = (ofText t).locate j ↔ i = j := by
  refine ⟨fun same => Nat.le_antisymm (Nat.not_lt.1 fun lt => ?_) (Nat.not_lt.1 fun lt => ?_),
    fun same => by rw [same]⟩
  · exact (before_locate hj hi lt).ne same.symm
  · exact (before_locate hi hj lt).ne same

/-- The line of an offset is the one that a search among the line starts leads to. -/
theorem line_locate_eq_iff (t : Text) (i n : Nat) : ((ofText t).locate i).line = n ↔
    ∃ answer, Searched (ofText t).starts (min i t.byteSize) answer ∧ Searched.lineOf answer = n := by
  have sorted : (ofText t).starts.Pairwise (· < ·) :=
    .cons (fun j hj => Text.lt_of_mem_breaksAfter hj) (Text.pairwise_breaksAfter 0 t)
  rw [line_locate_eq_countP]
  constructor
  · rintro rfl
    obtain ⟨answer, found⟩ := Searched.exists_answer sorted (min i t.byteSize)
    exact ⟨answer, found, found.lineOf_eq sorted⟩
  · rintro ⟨answer, found, rfl⟩
    exact (found.lineOf_eq sorted).symm

end LineIndex

/-- **Looking a line up and counting agree.** At a boundary the caret that is found among the line
starts is the one that walking over the characters in front of it reaches: its line counts the line
breaks there, its column the UTF-16 units behind the last of them, and neither count is larger than
that of the whole text. Boundaries are found in their order and each at a caret of its own. Offsets
past the end are found where the text ends. At every offset, also inside of a character, the line
counts the line break bytes in front of it, and it is the one that every search among the line
starts leads to. -/
theorem located_caret_exact (t : Text) :
    let index := LineIndex.ofText t
    (∀ i, Text.isBoundary t i = true →
      let front := t.takeBytes i
      index.locate i = Caret.origin.after front ∧
      index.locate i = ⟨Text.lineBreaks front, Text.units (Text.lastLine front)⟩ ∧
      (index.locate i).line ≤ Text.lineBreaks t ∧ (index.locate i).column ≤ Text.units t) ∧
    (∀ i j, Text.isBoundary t i = true → Text.isBoundary t j = true →
      ((index.locate i).Before (index.locate j) ↔ i < j) ∧
      (index.locate i = index.locate j ↔ i = j)) ∧
    (∀ i, t.byteSize ≤ i → index.locate i = Caret.origin.after t) ∧
    (∀ i, (index.locate i).line = ((Text.bytes t).take i).count (Char.toUInt8 '\n')) ∧
    ∀ i n, (index.locate i).line = n ↔
      ∃ answer, Searched index.starts (min i t.byteSize) answer ∧ Searched.lineOf answer = n := by
  intro index
  refine ⟨fun i hi => ?_, fun i j hi hj => ?_, fun i past => ?_, fun i => ?_, fun i n => ?_⟩
  · have counts := LineIndex.locate_eq_counts hi
    have wide := Text.counts_takeBytes_le t i
    refine ⟨LineIndex.locate_eq_caret hi, counts, ?_, ?_⟩
    · rw [counts]
      exact wide.1
    · rw [counts]
      exact Nat.le_trans (Text.units_lastLine_le _) wide.2
  · exact ⟨LineIndex.before_locate_iff hi hj, LineIndex.locate_inj hi hj⟩
  · rw [LineIndex.locate_of_le past, LineIndex.locate_eq_caret (Text.isBoundary_byteSize t),
      Text.caret, Text.takeBytes_byteSize]
  · rw [LineIndex.line_locate, Text.count_take_bytes]
  · exact LineIndex.line_locate_eq_iff t i n

/-- The offset 10 is inside of the last character, and 8 is where its line starts. -/
theorem carets_among_wide_characters :
    let t : Text := "é😀x\n😀".toList
    let index := LineIndex.ofText t
    Text.isBoundary t 6 = true ∧ Text.isBoundary t 12 = true ∧ Text.isBoundary t 10 = false ∧
      index.locate 6 = ⟨0, 3⟩ ∧ index.locate 12 = ⟨1, 2⟩ ∧
      (index.locate 6).Before (index.locate 12) ∧ t.byteSize ≤ 100 ∧
      index.locate 100 = Caret.origin.after t ∧ (index.locate 10).line = 1 ∧
      Searched index.starts 8 (.ok 1) ∧ (index.locate 8).line = 1 ∧
      Searched index.starts 6 (.error 1) ∧ (index.locate 6).line = 0 := by
  intro t index
  obtain ⟨exact, order, past, breaks, search⟩ := located_caret_exact t
  have here : Text.isBoundary t 6 = true := by decide
  have there : Text.isBoundary t 12 = true := by decide
  have hit : Searched index.starts 8 (.ok 1) := .hit rfl
  have miss : Searched index.starts 6 (.error 1) := .miss (by decide) (by decide) (by decide)
  exact ⟨here, there, by decide, (exact 6 here).2.1.trans (by decide),
    (exact 12 there).2.1.trans (by decide), (order 6 12 here there).1.2 (by decide), by decide,
    past 100 (by decide), (breaks 10).trans (by decide), hit, (search 8 1).2 ⟨_, hit, rfl⟩, miss,
    (search 6 0).2 ⟨_, miss, rfl⟩⟩

end ComponentEdit
