import ComponentEdit.Proofs.Text.Carets
import ComponentEdit.SourceMap.Token

/-!
# What a walk over the rendered text makes

The tokens of a stretch can be told from the caret where it starts (`Stretch.tokens`), and those of
a row of stretches stand one behind the other, each stretch starting at the caret behind the text
of those in front of it (`Stretch.tokensOfAll`). The walk makes just these tokens and ends at the
caret behind the text (`Walk.visit_eq`, `Walk.foldl_visit_eq`), so the tokens of a buffer are those
of its stretches (`Buffer.tokens_eq`).
-/

namespace ComponentEdit
set_option autoImplicit false

namespace Text

/-- A line break in front of a text is an empty line more, another character belongs to its
first line. -/
theorem lines_cons (c : Char) (t : Text) : ∃ l ls, lines t = l :: ls ∧
    lines (c :: t) = if c = '\n' then [] :: l :: ls else (c :: l) :: ls := by
  have ne : lines t ≠ [] := by
    cases t with
    | nil => simp [lines]
    | cons d t =>
      unfold lines
      split
      · simp
      · split <;> simp
  obtain ⟨l, ls, eq⟩ := List.exists_cons_of_ne_nil ne
  refine ⟨l, ls, eq, ?_⟩
  by_cases h : c = '\n' <;> simp [lines, eq, h]

/-- A text is its lines with a line break in front of every one but the first, and there is none
inside of a line. -/
theorem lines_spec (t : Text) : ∃ l ls, lines t = l :: ls ∧ t = l ++ ls.flatMap ('\n' :: ·) ∧
    '\n' ∉ l ∧ ∀ line ∈ ls, '\n' ∉ line := by
  induction t with
  | nil => exact ⟨[], [], rfl, rfl, by simp, by simp⟩
  | cons c t ih =>
    obtain ⟨l, ls, eq, text, single, singles⟩ := ih
    obtain ⟨l', ls', eq', step⟩ := lines_cons c t
    obtain ⟨rfl, rfl⟩ : l = l' ∧ ls = ls' := by simpa using eq.symm.trans eq'
    by_cases h : c = '\n'
    · refine ⟨[], l :: ls, by rw [step, if_pos h], ?_, by simp, ?_⟩
      · rw [text, h]
        rfl
      · exact List.forall_mem_cons.2 ⟨single, singles⟩
    · refine ⟨c :: l, ls, by rw [step, if_neg h], ?_, ?_, singles⟩
      · rw [text]
        rfl
      · rw [List.mem_cons, not_or]
        exact ⟨Ne.symm h, single⟩

end Text

/-- Behind a line that is walked over the same line comes next. -/
theorem Caret.nextLine_after (c : Caret) {line : Text} (single : '\n' ∉ line) :
    (c.after line).nextLine = c.nextLine := by
  rw [after_of_not_mem c single]
  rfl

namespace Stretch

/-- The tokens of a replacement, line by line; `isFirst` is true on its first line. -/
def replacedTokens (source : Caret) (name : Option Text) :
    (isFirst : Bool) → Caret → List Text → List Token
  | _, _, [] => []
  | isFirst, here, [line] => if isFirst || !line.isEmpty then [⟨here, source, name⟩] else []
  | _, here, _ :: lines =>
    ⟨here, source, name⟩ :: replacedTokens source name false here.nextLine lines

/-- A line has a token unless it is the last one of several and empty. -/
theorem replacedTokens_cons (source : Caret) (name : Option Text) (isFirst : Bool) (here : Caret)
    (line : Text) (ls : List Text) :
    replacedTokens source name isFirst here (line :: ls) =
      (if isFirst || !ls.isEmpty || !line.isEmpty then [⟨here, source, name⟩] else []) ++
        replacedTokens source name false here.nextLine ls := by
  cases ls <;> simp [replacedTokens]

/-- The tokens of copied text: of every character if `hires`, else of the first one of each line.
Line breaks get none. -/
def copiedTokens (hires : Bool) : (isFirst : Bool) → (generated source : Caret) → Text → List Token
  | _, _, _, [] => []
  | isFirst, generated, source, c :: cs =>
    if c = '\n' then copiedTokens hires true generated.nextLine source.nextLine cs
    else
      let rest := copiedTokens hires false (generated.step c) (source.step c) cs
      if hires || isFirst then ⟨generated, source, none⟩ :: rest else rest

/-- The tokens of a stretch that starts at a caret of the rendered text. -/
def tokens (hires : Bool) (generated : Caret) : Stretch → List Token
  | .attached _ => []
  | .replaced t source name => replacedTokens source name true generated (Text.lines t)
  | .copied t source => copiedTokens hires true generated source t

/-- The tokens of a row of stretches. -/
def tokensOfAll (hires : Bool) : Caret → List Stretch → List Token
  | _, [] => []
  | generated, s :: ss =>
    s.tokens hires generated ++ tokensOfAll hires (generated.after s.text) ss

end Stretch

namespace Walk

/-- A walk that has gone on over a text and made these tokens on the way. -/
def past (w : Walk) (t : Text) (tokens : List Token) : Walk :=
  ⟨w.here.after t, tokens.reverse ++ w.made⟩

@[simp] theorem past_nil (w : Walk) : w.past [] [] = w := rfl

@[simp] theorem here_past (w : Walk) (t : Text) (tokens : List Token) :
    (w.past t tokens).here = w.here.after t := rfl

@[simp] theorem past_past (w : Walk) (t u : Text) (xs ys : List Token) :
    (w.past t xs).past u ys = w.past (t ++ u) (xs ++ ys) := by
  simp [past]

theorem pass_eq (w : Walk) (t : Text) : w.pass t = w.past t [] := rfl

theorem nextLine_eq (w : Walk) : w.nextLine = w.past ['\n'] [] := rfl

theorem note_eq (w : Walk) (source : Caret) (name : Option Text) :
    w.note source name = w.past [] [⟨w.here, source, name⟩] := rfl

theorem note_if_eq (w : Walk) (marked : Bool) (source : Caret) (name : Option Text) :
    (if marked then w.note source name else w) =
      w.past [] (if marked then [⟨w.here, source, name⟩] else []) := by
  cases marked <;> rfl

/-- Copied text is walked over with its tokens. -/
theorem copied_eq (hires isFirst : Bool) (source : Caret) (w : Walk) (t : Text) :
    copied hires isFirst source w t =
      w.past t (Stretch.copiedTokens hires isFirst w.here source t) := by
  induction t generalizing isFirst source w with
  | nil => rfl
  | cons c t ih =>
    by_cases h : c = '\n'
    · simp [copied, Stretch.copiedTokens, ih, h, nextLine_eq, Caret.step]
    · cases marked : hires || isFirst <;>
        simp [copied, Stretch.copiedTokens, ih, h, marked, note_eq, pass_eq]

/-- A line of a replacement is walked over from where it starts, with its token if it has one. -/
theorem replaced_cons (source : Caret) (name : Option Text) (isFirst : Bool) (w : Walk)
    (line : Text) (ls : List Text) :
    replaced source name isFirst w (line :: ls) =
      let start := if isFirst then w else w.nextLine
      let tokens := if isFirst || !ls.isEmpty || !line.isEmpty then [⟨start.here, source, name⟩]
        else []
      replaced source name false (start.past line tokens) ls := by
  simp only [replaced, note_if_eq, pass_eq, past_past, List.nil_append, List.append_nil]

/-- The lines of a replacement behind its first one are walked over with their tokens. -/
theorem replaced_behind (source : Caret) (name : Option Text) (w : Walk) {ls : List Text}
    (singles : ∀ line ∈ ls, '\n' ∉ line) :
    replaced source name false w ls = w.past (ls.flatMap ('\n' :: ·))
      (Stretch.replacedTokens source name false w.here.nextLine ls) := by
  induction ls generalizing w with
  | nil => rfl
  | cons line ls ih =>
    obtain ⟨single, singles⟩ := List.forall_mem_cons.1 singles
    have below : w.nextLine.here = w.here.nextLine := rfl
    rw [replaced_cons, if_neg Bool.false_ne_true, ih _ singles, past_past, here_past, below,
      Caret.nextLine_after _ single, ← Stretch.replacedTokens_cons, nextLine_eq, past_past]
    rfl

/-- A replacement is walked over with its tokens. -/
theorem replaced_eq (source : Caret) (name : Option Text) (w : Walk) (t : Text) :
    replaced source name true w (Text.lines t) =
      w.past t (Stretch.replacedTokens source name true w.here (Text.lines t)) := by
  obtain ⟨l, ls, eq, text, single, singles⟩ := Text.lines_spec t
  rw [eq, replaced_cons, if_pos rfl, replaced_behind _ _ _ singles, past_past, here_past,
    Caret.nextLine_after _ single, ← Stretch.replacedTokens_cons, ← text]

/-- A stretch is walked over with its tokens, and the walk ends behind its text. -/
theorem visit_eq (hires : Bool) (w : Walk) (s : Stretch) :
    w.visit hires s = w.past s.text (s.tokens hires w.here) := by
  cases s with
  | attached t => exact w.pass_eq t
  | replaced t source name => exact replaced_eq source name w t
  | copied t source => exact copied_eq hires true source w t

/-- A row of stretches is walked over with the tokens of all of them. -/
theorem foldl_visit_eq (hires : Bool) (w : Walk) (ss : List Stretch) :
    ss.foldl (visit hires) w =
      w.past (ss.flatMap Stretch.text) (Stretch.tokensOfAll hires w.here ss) := by
  induction ss generalizing w with
  | nil => rfl
  | cons s ss ih =>
    rw [List.foldl_cons, ih, visit_eq, past_past]
    rfl

end Walk

/-- The tokens of a buffer are those of its stretches, one behind the other. -/
theorem Buffer.tokens_eq (b : Buffer) (hires : Bool) :
    b.tokens hires = Stretch.tokensOfAll hires .origin b.stretches := by
  rw [tokens, Walk.foldl_visit_eq]
  simp [Walk.past]

end ComponentEdit
