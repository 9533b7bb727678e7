import ComponentEdit.Proofs.Buffer.Refusal
import ComponentEdit.Proofs.SourceMap.Exactness

/-!
# What a cut adds to a map of one token a line

A map that is not of every character has a token for the first character of each line of a copied
chunk. A cut makes one chunk into two, so it adds a token for the character behind it
(`Buffer.Tiled.tokens_divide_inside`), unless that character opens a line anyway, ends one, or is
not there (`Buffer.Tiled.tokens_divide_outside`).
-/

namespace ComponentEdit
set_option autoImplicit false

namespace Stretch

/-- Whether the character behind a text opens a line, if the first one of the text does or not. -/
def opensAfter (isFirst : Bool) : Text → Bool
  | [] => isFirst
  | c :: t => opensAfter (c == '\n') t

theorem opensAfter_concat (isFirst : Bool) (t : Text) (c : Char) :
    opensAfter isFirst (t ++ [c]) = (c == '\n') := by
  induction t generalizing isFirst with
  | nil => rfl
  | cons d t ih => exact ih (d == '\n')

/-- Walking over a copied text goes on where its first part ends. -/
theorem copiedTokens_append (hires isFirst : Bool) (here source : Caret) (s r : Text) :
    copiedTokens hires isFirst here source (s ++ r) =
      copiedTokens hires isFirst here source s ++
        copiedTokens hires (opensAfter isFirst s) (here.after s) (source.after s) r := by
  induction s generalizing isFirst here source with
  | nil => rfl
  | cons c s ih =>
    by_cases h : c = '\n'
    · subst h
      simp [copiedTokens, ih, opensAfter, Caret.step]
    · have inside : (c == '\n') = false := by simp [h]
      by_cases marked : hires = true ∨ isFirst = true <;>
        simp [copiedTokens, ih, opensAfter, h, inside, marked]

/-- A character that opens a line has a token, and would have none otherwise. -/
theorem copiedTokens_opening (here source : Caret) {c : Char} (t : Text) (h : c ≠ '\n') :
    copiedTokens false true here source (c :: t) =
      ⟨here, source, none⟩ :: copiedTokens false false here source (c :: t) := by
  simp [copiedTokens, h]

/-- A line break has no token in any case. -/
theorem copiedTokens_break (hires isFirst isFirst' : Bool) (here source : Caret) (t : Text) :
    copiedTokens hires isFirst here source ('\n' :: t) =
      copiedTokens hires isFirst' here source ('\n' :: t) := by
  simp [copiedTokens]

theorem tokensOfAll_append (hires : Bool) (here : Caret) (xs ys : List Stretch) :
    tokensOfAll hires here (xs ++ ys) =
      tokensOfAll hires here xs ++ tokensOfAll hires (here.after (xs.flatMap text)) ys := by
  induction xs generalizing here with
  | nil => rfl
  | cons x xs ih => simp [tokensOfAll, ih]

end Stretch

/-- Walking over a slice leads from the caret of its start to that of its end. -/
theorem Text.caret_eq_after_slice {t s : Text} {i j : Nat} (hi : isBoundary t i = true)
    (hj : isBoundary t j = true) (le : i ≤ j) (eq : s = slice t i j) :
    t.caret j = (t.caret i).after s := by
  obtain ⟨p, m, q, rfl, rfl, rfl⟩ := exists_parts hi hj le
  have whole := caret_byteSize_append (p ++ m) q
  rw [byteSize_append, List.append_assoc] at whole
  rw [eq, slice_parts, whole, caret_byteSize_append, Caret.after_append]

namespace Buffer
variable {b : Buffer} {c : Chunk} {i : Nat}

/-- An offset has a character of the same line on both sides, and both are shown in one body that
is copied. -/
def InsideLine (b : Buffer) (i : Nat) : Prop :=
  ∃ c ∈ b.chunks, ∃ s x y r, c.body = .copied (s ++ x :: y :: r) ∧
    i = c.start + Text.byteSize (s ++ [x]) ∧ x ≠ '\n' ∧ y ≠ '\n'

theorem text_stretchesOf (b : Buffer) (c : Chunk) :
    (b.stretchesOf c).flatMap Stretch.text = c.render := by
  cases hb : c.body with
  | copied t => simp [stretchesOf, Stretch.text, Chunk.render, Body.text, hb]
  | replaced t named =>
    by_cases blank : t = [] <;>
      simp [stretchesOf, Stretch.text, Chunk.render, Body.text, hb, blank]

theorem text_flatMap_stretchesOf (b : Buffer) (cs : List Chunk) :
    (cs.flatMap b.stretchesOf).flatMap Stretch.text = cs.flatMap Chunk.render := by
  induction cs with
  | nil => rfl
  | cons c cs ih => simp [ih, text_stretchesOf]

/-- Of a row of chunks only the one across an offset is divided there. -/
theorem Tiled.exists_around (h : b.Tiled) (hc : c ∈ b.chunks) (cross : c.crosses i = true) :
    ∃ pre post, b.chunks = pre ++ [c] ++ post ∧
      (b.divide i).chunks = pre ++ [c.left i, c.right i] ++ post := by
  obtain ⟨pre, post, split⟩ := List.append_of_mem hc
  have inside := Chunk.crosses_iff.1 cross
  have tiles := h.tiles
  rw [split] at tiles
  have before : ∀ d ∈ pre, d.crosses i = false := fun d hd => by
    have le := (tiles.around.1.within hd).2
    exact Chunk.crosses_eq_false.2 (by omega)
  have behind : ∀ d ∈ post, d.crosses i = false := fun d hd => by
    have le := tiles.stop_le_of_behind d hd
    exact Chunk.crosses_eq_false.2 (by omega)
  have parts : c.divide i = [c.left i, c.right i] := by simp [Chunk.divide, cross]
  refine ⟨pre, post, by simp [split], ?_⟩
  show b.chunks.flatMap (·.divide i) = _
  rw [split, List.flatMap_append, List.flatMap_cons, Chunk.flatMap_divide before,
    Chunk.flatMap_divide behind, parts]
  simp

/-- The tokens of a buffer around those of some of its chunks. -/
theorem tokens_around {pre cs post : List Chunk} (split : b.chunks = pre ++ cs ++ post)
    (hires : Bool) : b.tokens hires =
      Stretch.tokensOfAll hires .origin (.attached b.front :: pre.flatMap b.stretchesOf) ++
        (Stretch.tokensOfAll hires (Caret.origin.after (b.front ++ pre.flatMap Chunk.render))
            (cs.flatMap b.stretchesOf) ++
          Stretch.tokensOfAll hires
            (Caret.origin.after (b.front ++ pre.flatMap Chunk.render ++ cs.flatMap Chunk.render))
            (post.flatMap b.stretchesOf ++ [.attached b.back])) := by
  have row : b.stretches = (.attached b.front :: pre.flatMap b.stretchesOf) ++
      (cs.flatMap b.stretchesOf ++ (post.flatMap b.stretchesOf ++ [.attached b.back])) := by
    simp [stretches, split]
  have front : List.flatMap Stretch.text (.attached b.front :: pre.flatMap b.stretchesOf) =
      b.front ++ pre.flatMap Chunk.render := by
    rw [List.flatMap_cons, text_flatMap_stretchesOf]
    rfl
  rw [tokens_eq, row, Stretch.tokensOfAll_append, Stretch.tokensOfAll_append,
    text_flatMap_stretchesOf, front, ← Caret.after_append]

/-- A cut changes the tokens of a map only where the chunk across it makes them. -/
theorem Tiled.tokens_parts (h : b.Tiled) (hc : c ∈ b.chunks) (cross : c.crosses i = true)
    (divisible : c.body.isDivisible = true) (hires : Bool) :
    ∃ u v here,
      b.tokens hires = u ++ (Stretch.tokensOfAll hires here (b.stretchesOf c) ++ v) ∧
        (b.divide i).tokens hires = u ++ (Stretch.tokensOfAll hires here
          (b.stretchesOf (c.left i) ++ b.stretchesOf (c.right i)) ++ v) := by
  obtain ⟨pre, post, split, split'⟩ := h.exists_around hc cross
  have whole := tokens_around split hires
  have divided := tokens_around split' hires
  have render : [c.left i, c.right i].flatMap Chunk.render = [c].flatMap Chunk.render := by
    have parts := Chunk.render_divide divisible i
    simpa [Chunk.divide, cross] using parts
  rw [render] at divided
  rw [List.flatMap_singleton] at whole
  rw [List.flatMap_cons, List.flatMap_singleton] at divided
  exact ⟨_, _, _, whole, divided⟩

/-- A cut of a copied chunk goes through its text with a fresh start at the cut. -/
theorem Tiled.tokens_divide_copied (h : b.Tiled) (hc : c ∈ b.chunks)
    (hi : Text.isBoundary b.base i = true) (cross : c.crosses i = true) {t : Text}
    (body : c.body = .copied t) (hires : Bool) :
    ∃ s r u v here source, t = s ++ r ∧ c.start + Text.byteSize s = i ∧
      i + Text.byteSize r = c.stop ∧
      b.tokens hires =
          u ++ (Stretch.copiedTokens hires (Stretch.opensAfter true s) here source r ++ v) ∧
        (b.divide i).tokens hires =
          u ++ (Stretch.copiedTokens hires true here source r ++ v) := by
  have placed := h.tiles.placed hc
  obtain ⟨s, r, rfl, place, stop, left, right⟩ := placed.body_parts hi cross body
  obtain ⟨u, v, here, whole, divided⟩ := h.tokens_parts hc cross (by rw [body]; rfl) hires
  have source : (LineIndex.ofText b.base).locate i =
      ((LineIndex.ofText b.base).locate c.start).after s := by
    rw [LineIndex.locate_eq_caret hi, LineIndex.locate_eq_caret placed.start_boundary]
    exact Text.caret_eq_after_slice placed.start_boundary hi (by omega)
      ((placed.parts hi cross).1.copied s left)
  have row : Stretch.tokensOfAll hires here (b.stretchesOf c) =
      Stretch.copiedTokens hires true (here.after c.before)
        ((LineIndex.ofText b.base).locate c.start) (s ++ r) := by
    simp [stretchesOf, Stretch.tokensOfAll, Stretch.tokens, Stretch.text, body]
  have rows : Stretch.tokensOfAll hires here
      (b.stretchesOf (c.left i) ++ b.stretchesOf (c.right i)) =
      Stretch.copiedTokens hires true (here.after c.before)
        ((LineIndex.ofText b.base).locate c.start) s ++
        Stretch.copiedTokens hires true ((here.after c.before).after s)
          (((LineIndex.ofText b.base).locate c.start).after s) r := by
    have before : (c.right i).before = [] := rfl
    have after : (c.left i).after = [] := rfl
    have starts : (c.left i).start = c.start ∧ (c.right i).start = i := ⟨rfl, rfl⟩
    have front : (c.left i).before = c.before := rfl
    simp [stretchesOf, Stretch.tokensOfAll, Stretch.tokens, Stretch.text, left, right, before,
      after, starts, front, source]
  rw [row, Stretch.copiedTokens_append, List.append_assoc, ← List.append_assoc] at whole
  rw [rows, List.append_assoc, ← List.append_assoc] at divided
  exact ⟨s, r, _, _, _, _, rfl, place, stop, whole, divided⟩

/-- A cut inside a line of copied text adds a token to a map of one token a line. -/
theorem Tiled.tokens_divide_inside (h : b.Tiled) (inside : b.InsideLine i) :
    ∃ u token v, b.tokens false = u ++ v ∧ (b.divide i).tokens false = u ++ token :: v := by
  obtain ⟨c, hc, s, x, y, r, body, rfl, hx, hy⟩ := inside
  have placed := h.tiles.placed hc
  have parts : c.body = .copied ((s ++ [x]) ++ y :: r) := by simp [body]
  have size := Text.add_byteSize_slice placed.start_boundary placed.stop_boundary placed.le
  rw [← placed.copied _ parts, Text.byteSize_append] at size
  have before : 0 < Text.byteSize (s ++ [x]) := Text.byteSize_pos (by simp)
  have behind : 0 < Text.byteSize (y :: r) := Text.byteSize_pos (by simp)
  have cross : c.crosses (c.start + Text.byteSize (s ++ [x])) = true :=
    Chunk.crosses_iff.2 (by omega)
  obtain ⟨s', r', u, v, here, source, whole, place, -, tokens, divided⟩ :=
    h.tokens_divide_copied hc (placed.boundary_of_copied parts) cross parts false
  obtain rfl : s ++ [x] = s' := by
    rw [← Text.takeBytes_byteSize_append (s ++ [x]) (y :: r), whole,
      ← Nat.add_left_cancel place, Text.takeBytes_byteSize_append]
  obtain rfl := List.append_cancel_left whole
  have inner : Stretch.opensAfter true (s ++ [x]) = false := by
    rw [Stretch.opensAfter_concat]
    simp [hx]
  rw [inner] at tokens
  rw [Stretch.copiedTokens_opening _ _ _ hy, List.cons_append] at divided
  exact ⟨u, _, _, tokens, divided⟩

/-- A cut that goes through elsewhere leaves such a map as it is. -/
theorem Tiled.tokens_divide_outside (h : b.Tiled) (ok : b.obstacle? i = none)
    (outside : ¬b.InsideLine i) : (b.divide i).tokens false = b.tokens false := by
  obtain ⟨hi, hd⟩ := h.obstacle?_eq_none.1 ok
  by_cases parted : b.Parted i
  · rw [divide_eq_self parted]
  · obtain ⟨c, hc, cross⟩ : ∃ c ∈ b.chunks, c.crosses i = true := by
      simpa [Parted] using parted
    have apart := Chunk.crosses_iff.1 cross
    cases body : c.body with
    | replaced t named =>
      have blank : t = [] := by simpa [Body.isDivisible, body] using hd c hc cross
      obtain ⟨u, v, here, whole, divided⟩ := h.tokens_parts hc cross (hd c hc cross) false
      rw [whole, divided]
      simp [stretchesOf, Stretch.tokensOfAll, Stretch.tokens, Chunk.left, Chunk.right, Body.left,
        Body.right, body, blank]
    | copied t =>
      obtain ⟨s, r, u, v, here, source, rfl, place, stop, whole, divided⟩ :=
        h.tokens_divide_copied hc hi cross body false
      obtain rfl | ⟨s, x, rfl⟩ := List.eq_nil_or_concat s
      · simp only [Text.byteSize_nil] at place
        omega
      rw [List.concat_eq_append] at *
      cases r with
      | nil =>
        simp only [Text.byteSize_nil] at stop
        omega
      | cons y r =>
        rw [whole, divided, Stretch.opensAfter_concat]
        by_cases hx : x = '\n'
        · simp [hx]
        · by_cases hy : y = '\n'
          · rw [hy, Stretch.copiedTokens_break false true (x == '\n')]
          · exact absurd ⟨c, hc, s, x, y, r, by simp [body], place.symm, hx, hy⟩ outside

end Buffer

end ComponentEdit
