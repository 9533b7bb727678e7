import ComponentEdit.Proofs.Text.Offsets
import ComponentEdit.Text.Lines

/-!
# Carets of a text

The caret of an offset is where walking over the characters in front of it ends
(`Text.caret`). Looking the line up among the line starts finds the same caret
(`LineIndex.locate_eq_caret`). Walking only ever goes forward (`Caret.Before`), so
different characters of a text stand at different carets (`after_take_inj`).
-/

namespace ComponentEdit
set_option autoImplicit false

namespace Caret

/-- In an earlier line, or in the same line further to the left. -/
def Before (c d : Caret) : Prop := c.line < d.line ∨ c.line = d.line ∧ c.column < d.column

theorem Before.trans {c d e : Caret} (h : c.Before d) (h' : d.Before e) : c.Before e := by
  unfold Before at *
  omega

theorem Before.ne {c d : Caret} (h : c.Before d) : c ≠ d := by
  rintro rfl
  unfold Before at h
  omega

theorem before_step (c : Caret) (ch : Char) : c.Before (c.step ch) := by
  unfold step nextLine
  split
  · exact .inl (Nat.lt_succ_self _)
  · have wide : 0 < Text.unitsOf ch := by unfold Text.unitsOf; split <;> decide
    exact .inr ⟨rfl, Nat.lt_add_of_pos_right wide⟩

/-- Walking over characters goes forward. -/
theorem before_after (c : Caret) {t : Text} (ne : t ≠ []) : c.Before (c.after t) := by
  induction t generalizing c with
  | nil => exact absurd rfl ne
  | cons ch t ih =>
    rw [after_cons]
    by_cases last : t = []
    · rw [last, after_nil]
      exact c.before_step ch
    · exact (c.before_step ch).trans (ih (c.step ch) last)

/-- What is further on in a text is further on in its lines. -/
theorem before_after_take {t : Text} {j k : Nat} (c : Caret) (hk : k ≤ t.length) (lt : j < k) :
    (c.after (t.take j)).Before (c.after (t.take k)) := by
  obtain ⟨d, rfl⟩ := Nat.exists_eq_add_of_lt lt
  rw [Nat.add_assoc, List.take_add, after_append]
  apply before_after
  rw [← List.length_pos_iff, List.length_take, List.length_drop]
  omega

/-- Characters of a text at the same caret are the same. -/
theorem after_take_inj {t : Text} {c : Caret} {j k : Nat} (hj : j ≤ t.length) (hk : k ≤ t.length)
    (eq : c.after (t.take j) = c.after (t.take k)) : j = k := by
  rcases Nat.lt_trichotomy j k with lt | same | lt
  · exact absurd eq (before_after_take c hk lt).ne
  · exact same
  · exact absurd eq.symm (before_after_take c hj lt).ne

/-- Every line break on the way leads to the line below. -/
theorem line_after (c : Caret) (t : Text) : (c.after t).line = c.line + Text.lineBreaks t := by
  induction t generalizing c with
  | nil => rfl
  | cons ch t ih =>
    rw [after_cons, ih, Text.lineBreaks, Text.lineBreaks, List.count_cons]
    by_cases h : ch = '\n'
    · simp [step, nextLine, h]
      omega
    · simp [step, h]

/-- Text without line breaks is walked over in its line. -/
theorem after_of_not_mem (c : Caret) {t : Text} (h : '\n' ∉ t) :
    c.after t = ⟨c.line, c.column + Text.units t⟩ := by
  induction t generalizing c with
  | nil => rfl
  | cons ch t ih =>
    rw [List.mem_cons, not_or] at h
    obtain ⟨other, rest⟩ := h
    rw [after_cons, ih _ rest, step, if_neg (Ne.symm other), Text.units, Nat.add_assoc]

end Caret

namespace Text
variable {t p r : Text} {i : Nat}

/-- The caret of a byte offset: where the characters in front of it end. -/
def caret (t : Text) (i : Nat) : Caret := Caret.origin.after (t.takeBytes i)

@[simp] theorem caret_byteSize_append (p r : Text) :
    caret (p ++ r) (byteSize p) = Caret.origin.after p := by
  simp [caret]

theorem breaksAfter_append (i : Nat) (p r : Text) :
    breaksAfter i (p ++ r) = breaksAfter i p ++ breaksAfter (i + byteSize p) r := by
  induction p generalizing i with
  | nil => simp [breaksAfter]
  | cons c p ih =>
    by_cases h : c = '\n' <;> simp [breaksAfter, h, ih, Nat.add_assoc]

theorem breaksAfter_of_not_mem (h : '\n' ∉ t) (i : Nat) : breaksAfter i t = [] := by
  induction t generalizing i with
  | nil => rfl
  | cons c t ih =>
    rw [List.mem_cons, not_or] at h
    obtain ⟨other, rest⟩ := h
    simp [breaksAfter, Ne.symm other, ih rest]

/-- A line starts behind the first character of a text or further on. -/
theorem eq_or_mem_of_mem_breaksAfter {c : Char} {j : Nat} (h : j ∈ breaksAfter i (c :: t)) :
    j = i + c.utf8Size ∨ j ∈ breaksAfter (i + c.utf8Size) t := by
  unfold breaksAfter at h
  split at h
  · exact List.mem_cons.1 h
  · exact .inr h

theorem lt_of_mem_breaksAfter {j : Nat} (h : j ∈ breaksAfter i t) : i < j := by
  induction t generalizing i with
  | nil => simp [breaksAfter] at h
  | cons c t ih =>
    have pos := c.utf8Size_pos
    rcases eq_or_mem_of_mem_breaksAfter h with rfl | later
    · omega
    · have := ih later
      omega

/-- The line starts up to an offset are as many as the line breaks in front of it. -/
theorem countP_breaksAfter (i : Nat) (t : Text) (k : Nat) :
    (breaksAfter i t).countP (· ≤ i + k) = lineBreaks (takeBytes t k) := by
  induction t generalizing i k with
  | nil => rfl
  | cons c t ih =>
    by_cases fits : c.utf8Size ≤ k
    · obtain ⟨k, rfl⟩ := Nat.exists_eq_add_of_le fits
      have rest := ih (i + c.utf8Size) k
      rw [Nat.add_assoc] at rest
      rw [takeBytes, if_pos fits, Nat.add_sub_cancel_left, lineBreaks, List.count_cons, ← lineBreaks,
        ← rest, breaksAfter]
      by_cases h : c = '\n' <;> simp [h]
    · have beyond : ∀ j ∈ breaksAfter i (c :: t), ¬j ≤ i + k := by
        intro j hj
        rcases eq_or_mem_of_mem_breaksAfter hj with rfl | later
        · omega
        · have := lt_of_mem_breaksAfter later
          omega
      rw [takeBytes, if_neg fits, List.countP_eq_zero.2 (by simpa using beyond)]
      rfl

theorem length_breaksAfter (i : Nat) (t : Text) : (breaksAfter i t).length = lineBreaks t := by
  induction t generalizing i with
  | nil => rfl
  | cons c t ih =>
    by_cases h : c = '\n' <;> simp [breaksAfter, lineBreaks, h, ih]

/-- The last line of a text, and all the lines in front of it, each with its line break. -/
theorem exists_last_line (t : Text) : ∃ q s, t = q ++ s ∧ '\n' ∉ s ∧
    (q = [] ∨ ∃ q', q = q' ++ ['\n']) := by
  induction t with
  | nil => exact ⟨[], [], rfl, by simp, .inl rfl⟩
  | cons c t ih =>
    obtain ⟨q, s, rfl, none, shape⟩ := ih
    rcases shape with rfl | ⟨q', rfl⟩
    · by_cases h : c = '\n'
      · exact ⟨[c], s, rfl, none, .inr ⟨[], by rw [h]; rfl⟩⟩
      · exact ⟨[], c :: s, rfl, by simp [Ne.symm h, none], .inl rfl⟩
    · exact ⟨c :: (q' ++ ['\n']), s, rfl, none, .inr ⟨c :: q', rfl⟩⟩

/-- Behind a line break a line starts, whose number is how many of them there are. -/
theorem last_start {q : Text} (shape : q = [] ∨ ∃ q', q = q' ++ ['\n']) :
    (0 :: breaksAfter 0 q)[(breaksAfter 0 q).length]? = some (byteSize q) := by
  rcases shape with rfl | ⟨q', rfl⟩
  · rfl
  · have size : ('\n' : Char).utf8Size = 1 := rfl
    simp [breaksAfter_append, breaksAfter, size]

/-- Walking to a line start ends in its first column. -/
theorem after_lines {q : Text} (shape : q = [] ∨ ∃ q', q = q' ++ ['\n']) :
    Caret.origin.after q = ⟨(breaksAfter 0 q).length, 0⟩ := by
  rw [length_breaksAfter]
  rcases shape with rfl | ⟨q', rfl⟩
  · rfl
  · have before := Caret.line_after Caret.origin (q' ++ ['\n'])
    rw [Caret.after_append, Caret.after_cons, Caret.after_nil, Caret.step, if_pos rfl] at before ⊢
    simp only [Caret.nextLine, Caret.origin, Nat.zero_add] at before ⊢
    rw [before]

end Text

namespace LineIndex

/-- The caret found among the line starts is the one that walking to the offset reaches. -/
theorem locate_eq_caret {t : Text} {i : Nat} (hi : Text.isBoundary t i = true) :
    (ofText t).locate i = t.caret i := by
  obtain ⟨p, r, rfl, rfl⟩ := Text.isBoundary_iff.1 hi
  obtain ⟨q, s, rfl, single, shape⟩ := Text.exists_last_line p
  have inside : min (Text.byteSize (q ++ s)) (Text.byteSize (ofText (q ++ s ++ r)).text) =
      Text.byteSize (q ++ s) := by
    rw [ofText, Text.byteSize_append (q ++ s) r]
    omega
  have starts : (ofText (q ++ s ++ r)).starts = (0 :: Text.breaksAfter 0 q) ++
      Text.breaksAfter (Text.byteSize (q ++ s)) r := by
    simp [ofText, Text.breaksAfter_append, Text.breaksAfter_of_not_mem single]
  have line : (ofText (q ++ s ++ r)).starts.countP (· ≤ Text.byteSize (q ++ s)) - 1 =
      (Text.breaksAfter 0 q).length := by
    have count := Text.countP_breaksAfter 0 (q ++ s ++ r) (Text.byteSize (q ++ s))
    rw [Nat.zero_add, Text.takeBytes_byteSize_append, Text.lineBreaks, List.count_append,
      List.count_eq_zero.2 single, Nat.add_zero] at count
    rw [ofText, List.countP_cons_of_pos (by simp), count, Nat.add_sub_cancel,
      Text.length_breaksAfter, Text.lineBreaks]
  have start : (ofText (q ++ s ++ r)).starts.getD (Text.breaksAfter 0 q).length 0 =
      Text.byteSize q := by
    rw [starts, List.getD_eq_getElem?_getD, List.getElem?_append_left (by simp),
      Text.last_start shape, Option.getD_some]
  have segment : Text.slice? (ofText (q ++ s ++ r)).text (Text.byteSize q) (Text.byteSize (q ++ s)) = some s := by
    rw [Text.slice?_eq_some_iff]
    refine ⟨by rw [Text.byteSize_append]; omega,
      Text.isBoundary_iff.2 ⟨q, s ++ r, List.append_assoc q s r, rfl⟩, hi, ?_⟩
    rw [ofText, Text.byteSize_append, List.append_assoc, Text.slice_parts]
  simp only [locate, inside, line, start, segment]
  rw [Text.caret_byteSize_append, Caret.after_append, Text.after_lines shape,
    Caret.after_of_not_mem _ single, Nat.zero_add]

end LineIndex

end ComponentEdit
