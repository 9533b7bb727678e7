import ComponentEdit.Proofs.Buffer.Refinement
import ComponentEdit.Proofs.Buffer.Seam

/-!
# What edits do to a rendered text

A rendered text is what is shown up to an offset, what is attached there, and what is shown
from there on (`Slots.render_split`). An edit changes only the middle: an insertion one of the
two attached texts (`Layout.render_attachLeft`, `Layout.render_attachRight`), a replacement
also the bodies of its range (`Layout.render_overwrite`). So what an edit of a part leaves
is told by the text it puts in and by the attached text it shows around it
(`Layout.render_effect`).
-/

namespace ComponentEdit
set_option autoImplicit false

/-- Attached text in front of something and behind it. -/
structure Rim where
  front : Text := []
  back : Text := []
deriving DecidableEq, Repr

/-- A text with attached text around it. -/
def Rim.around (r : Rim) (content : Text) : Text := r.front ++ content ++ r.back

/-- A range of offsets and the text that takes its place. -/
structure Splice where
  start : Nat
  stop : Nat
  content : Text
deriving DecidableEq, Repr

/-- What an edit of a text of `size` bytes puts where. -/
def Edit.splice (size : Nat) : Edit → Splice
  | .append content => ⟨size, size, content⟩
  | .prepend content => ⟨0, 0, content⟩
  | .appendLeft i content | .prependLeft i content | .appendRight i content
  | .prependRight i content => ⟨i, i, content⟩
  | .overwrite start stop content _ => ⟨start, stop, content⟩
  | .remove start stop => ⟨start, stop, []⟩

/-- The attached text that an edit of a part shows around what it puts in: `left` and `right`
are attached to the offsets of the whole, and `whole` says that a range is not cut inside. -/
def Edit.kept (left right : Nat → Text) (whole : Nat → Nat → Bool) (part : Span) : Edit → Rim
  | .append _ => ⟨left part.stop ++ right part.stop, []⟩
  | .prepend _ => ⟨left part.start, right part.start⟩
  | .appendLeft i _ | .prependRight i _ => ⟨left (part.start + i), right (part.start + i)⟩
  | .prependLeft i _ => ⟨[], left (part.start + i) ++ right (part.start + i)⟩
  | .appendRight i _ => ⟨left (part.start + i) ++ right (part.start + i), []⟩
  | .overwrite start stop _ options =>
    ⟨left (part.start + start) ++
        if options.contentOnly then right (part.start + start) else [],
      (if options.contentOnly && whole (part.start + start) (part.start + stop) then
        left (part.start + stop) else []) ++ right (part.start + stop)⟩
  | .remove start stop =>
    if start = stop then ⟨left (part.start + start) ++ right (part.start + start), []⟩
    else ⟨left (part.start + start), right (part.start + stop)⟩

/-- Where nothing is attached to the ends of the range it addresses, an edit shows nothing
around what it puts in. -/
theorem Edit.kept_of_bare (left right : Nat → Text) (whole : Nat → Nat → Bool) {part : Span}
    {e : Edit} (le : part.start ≤ part.stop)
    (start : left (part.start + (e.splice part.length).start) = [] ∧
      right (part.start + (e.splice part.length).start) = [])
    (stop : left (part.start + (e.splice part.length).stop) = [] ∧
      right (part.start + (e.splice part.length).stop) = []) :
    e.kept left right whole part = {} := by
  cases e with
  | append content =>
    have last : part.start + part.length = part.stop := by unfold Span.length; omega
    simp only [splice, last] at stop
    simp [kept, stop]
  | remove i j =>
    simp only [splice] at start stop
    by_cases none : i = j
    · simp [kept, none, stop]
    · simp [kept, none, start, stop]
  | _ => simp_all [splice, kept]

namespace Slots
variable {m m' : Slots} {i : Nat}

/-- What the characters of `t`, which starts at `i`, show with the text attached in front of
each of them. -/
def upTo (m : Slots) : Nat → Text → Text
  | _, [] => []
  | i, c :: t => m.left i ++ m.right i ++ m.body i ++ m.upTo (i + c.utf8Size) t

theorem upTo_append (m : Slots) (i : Nat) (s t : Text) :
    m.upTo i (s ++ t) = m.upTo i s ++ m.upTo (i + Text.byteSize s) t := by
  induction s generalizing i with
  | nil => simp [upTo]
  | cons c s ih => simp [upTo, ih, Nat.add_assoc]

theorem renderFrom_append (m : Slots) (i : Nat) (s t : Text) :
    m.renderFrom i (s ++ t) = m.upTo i s ++ m.renderFrom (i + Text.byteSize s) t := by
  induction s generalizing i with
  | nil => simp [upTo]
  | cons c s ih => simp [upTo, renderFrom, ih, Nat.add_assoc]

/-- A text rendered around one of its offsets. -/
theorem render_split (m : Slots) (p q : Text) :
    m.render (p ++ q) = m.upTo 0 p ++ (m.left (Text.byteSize p) ++ m.right (Text.byteSize p)) ++
      m.after (Text.byteSize p) q := by
  rw [render, renderFrom_append, Nat.zero_add, renderFrom_eq_after, List.append_assoc (m.upTo 0 p)]

/-- A stretch counts the text attached behind a character, `upTo` the text in front of it. -/
theorem left_stretch (m : Slots) (i : Nat) (t : Text) :
    m.left i ++ m.stretch i t = m.upTo i t ++ m.left (i + Text.byteSize t) := by
  induction t generalizing i with
  | nil => simp [stretch, upTo]
  | cons c t ih =>
    have rest := ih (i + c.utf8Size)
    simp only [stretch, upTo, List.append_assoc, Text.byteSize_cons, ← Nat.add_assoc, rest]

/-- A part of the base that is copied, with nothing attached inside. -/
theorem upTo_copied {t : Text} {j : Nat} (hi : Text.isBoundary t i = true)
    (hj : Text.isBoundary t j = true) (lt : i < j)
    (quiet : ∀ k, i < k → k < j → m.left k = [] ∧ m.right k = [])
    (own : ∀ k, i ≤ k → k < j → m.body k = Text.charAt t k) :
    m.upTo i (Text.slice t i j) = m.left i ++ m.right i ++ Text.slice t i j := by
  have both := m.left_stretch i (Text.slice t i j)
  rw [stretch_copied hi hj lt quiet own, Text.add_byteSize_slice hi hj (Nat.le_of_lt lt)] at both
  simp only [← List.append_assoc, List.append_cancel_right_eq] at both
  exact both.symm

theorem upTo_congr {t : Text} (same : ∀ k < Text.byteSize t, m.left (i + k) = m'.left (i + k) ∧
      m.right (i + k) = m'.right (i + k) ∧ m.body (i + k) = m'.body (i + k)) :
    m.upTo i t = m'.upTo i t := by
  induction t generalizing i with
  | nil => rfl
  | cons c t ih =>
    have pos := c.utf8Size_pos
    have here := same 0 (by simp only [Text.byteSize_cons]; omega)
    simp only [Nat.add_zero] at here
    have rest := ih (i := i + c.utf8Size) fun k hk => by
      simpa [Nat.add_assoc] using same (c.utf8Size + k) (by simp only [Text.byteSize_cons]; omega)
    simp [upTo, here, rest]

/-- Slots that differ only in what is attached at one offset. -/
theorem render_of_apart {p q : Text} (left : ∀ k, k ≠ Text.byteSize p → m'.left k = m.left k)
    (right : ∀ k, k ≠ Text.byteSize p → m'.right k = m.right k) (body : m'.body = m.body) :
    m'.render (p ++ q) =
      m.upTo 0 p ++ (m'.left (Text.byteSize p) ++ m'.right (Text.byteSize p)) ++
        m.after (Text.byteSize p) q := by
  have front : m'.upTo 0 p = m.upTo 0 p := upTo_congr fun k hk =>
    ⟨left _ (by omega), right _ (by omega), by rw [body]⟩
  have back : m'.after (Text.byteSize p) q = m.after (Text.byteSize p) q :=
    after_congr (fun k lo _ => ⟨left _ (by omega), right _ (by omega)⟩) fun k _ => by rw [body]
  rw [render_split, front, back]

/-- A range of which only the first body is left, with nothing attached inside. -/
theorem render_of_replaced {p y q : Text} (ne : y ≠ [])
    (front : ∀ k < Text.byteSize p, m'.left k = m.left k ∧ m'.right k = m.right k ∧
      m'.body k = m.body k)
    (inside : ∀ k, Text.byteSize p < k → k < Text.byteSize p + Text.byteSize y →
      m'.left k = [] ∧ m'.right k = [] ∧ m'.body k = [])
    (back : ∀ k, Text.byteSize p + Text.byteSize y < k → m'.left k = m.left k ∧
      m'.right k = m.right k)
    (bodies : ∀ k, Text.byteSize p + Text.byteSize y ≤ k → m'.body k = m.body k) :
    m'.render (p ++ (y ++ q)) =
      m.upTo 0 p ++ (m'.left (Text.byteSize p) ++ m'.right (Text.byteSize p)) ++
        m'.body (Text.byteSize p) ++
        (m'.left (Text.byteSize p + Text.byteSize y) ++
          m'.right (Text.byteSize p + Text.byteSize y)) ++
        m.after (Text.byteSize p + Text.byteSize y) q := by
  have first : m'.upTo 0 p = m.upTo 0 p := upTo_congr fun k hk => by simpa using front k hk
  have last : m'.after (Text.byteSize p + Text.byteSize y) q =
      m.after (Text.byteSize p + Text.byteSize y) q :=
    after_congr (fun k lo _ => back _ (by omega)) fun k _ => bodies _ (by omega)
  have middle : m'.upTo (Text.byteSize p) y = m'.left (Text.byteSize p) ++
      m'.right (Text.byteSize p) ++ m'.body (Text.byteSize p) := by
    have both := m'.left_stretch (Text.byteSize p) y
    rw [stretch_of_quiet ne fun k lo hi => ⟨(inside k lo hi).1, (inside k lo hi).2.1⟩,
      bodies_of_replaced ne fun k lo hi => (inside k lo hi).2.2] at both
    simp only [← List.append_assoc, List.append_cancel_right_eq] at both
    exact both.symm
  rw [render, renderFrom_append, renderFrom_append, renderFrom_eq_after, Nat.zero_add, first, last,
    middle]
  simp

end Slots

namespace Layout
variable {m : Layout} {p q y : Text}

theorem render_attachLeft (m : Layout) (p q : Text) (f : Text → Text) :
    (m.attachLeft (Text.byteSize p) f).render (p ++ q) =
      m.upTo 0 p ++ (f (m.left (Text.byteSize p)) ++ m.right (Text.byteSize p)) ++
        m.after (Text.byteSize p) q := by
  have apart : ∀ k, k ≠ Text.byteSize p →
      (m.attachLeft (Text.byteSize p) f).left k = m.left k := fun k ne => by
    rw [attachLeft_left, if_neg ne]
  have here : (m.attachLeft (Text.byteSize p) f).left (Text.byteSize p) =
      f (m.left (Text.byteSize p)) := by rw [attachLeft_left, if_pos rfl]
  exact here ▸ Slots.render_of_apart apart (fun _ _ => rfl) rfl

theorem render_attachRight (m : Layout) (p q : Text) (f : Text → Text) :
    (m.attachRight (Text.byteSize p) f).render (p ++ q) =
      m.upTo 0 p ++ (m.left (Text.byteSize p) ++ f (m.right (Text.byteSize p))) ++
        m.after (Text.byteSize p) q := by
  have apart : ∀ k, k ≠ Text.byteSize p →
      (m.attachRight (Text.byteSize p) f).right k = m.right k := fun k ne => by
    rw [attachRight_right, if_neg ne]
  have here : (m.attachRight (Text.byteSize p) f).right (Text.byteSize p) =
      f (m.right (Text.byteSize p)) := by rw [attachRight_right, if_pos rfl]
  exact here ▸ Slots.render_of_apart (fun _ _ => rfl) apart rfl

/-- Cuts at the ends of a range are not inside it. -/
theorem uncut_mark {i start stop : Nat} (apart : i ≤ start ∨ stop ≤ i) :
    (m.mark i).uncut start stop = m.uncut start stop := by
  rw [Bool.eq_iff_iff, uncut_iff, uncut_iff]
  refine forall_congr' fun k => forall_congr' fun lo => forall_congr' fun hi => ?_
  rw [mark_cut, if_neg (by omega)]

section Overwrite
variable {start stop : Nat} {content : Text} {options : OverwriteMode}

theorem overwrite_left_outside {i : Nat} (out : i ≤ start ∨ stop < i) :
    (m.overwrite start stop content options).left i = m.left i := by
  have : ¬(start < i ∧ i ≤ stop) := by omega
  simp [overwrite, replace, mark, this]

theorem overwrite_right_outside {i : Nat} (out : i < start ∨ stop ≤ i) :
    (m.overwrite start stop content options).right i = m.right i := by
  have : ¬(start ≤ i ∧ i < stop) := by omega
  simp [overwrite, replace, mark, this]

theorem overwrite_body_outside {i : Nat} (lt : start < stop) (out : i < start ∨ stop ≤ i) :
    (m.overwrite start stop content options).body i = m.body i := by
  have first : i ≠ start := by omega
  have inside : ¬(start < i ∧ i < stop) := by omega
  simp [overwrite, replace, mark, first, inside]

theorem overwrite_left_stop (lt : start < stop) :
    (m.overwrite start stop content options).left stop =
      if options.contentOnly && m.uncut start stop then m.left stop else [] := by
  have uncut : ((m.mark start).mark stop).uncut start stop = m.uncut start stop := by
    rw [uncut_mark (.inr (Nat.le_refl _)), uncut_mark (.inl (Nat.le_refl _))]
  have same : ((m.mark start).mark stop).left stop = m.left stop := rfl
  by_cases keep : options.contentOnly = true <;> by_cases whole : m.uncut start stop = true <;>
    simp [overwrite, replace, uncut, lt, keep, whole, same]

theorem overwrite_right_start (lt : start < stop) :
    (m.overwrite start stop content options).right start =
      if options.contentOnly then m.right start else [] := by
  by_cases keep : options.contentOnly = true <;> simp [overwrite, replace, mark, lt, keep]

theorem overwrite_inside {i : Nat} (lo : start < i) (hi : i < stop) (quiet : m.left i = []) :
    (m.overwrite start stop content options).left i = [] ∧
      (m.overwrite start stop content options).right i = [] ∧
      (m.overwrite start stop content options).body i = [] := by
  have apart : i ≠ start := by omega
  have within : start < i ∧ i ≤ stop := by omega
  refine ⟨?_, ?_, ?_⟩
  · simp [overwrite, replace, mark, quiet]
  · simp [overwrite, replace, apart, hi, Nat.le_of_lt lo]
  · simp [overwrite, replace, apart, lo, hi]

end Overwrite

/-- A range with nothing attached inside, and what replaces it. Attached text stays at its ends,
on the outer sides, and on the inner sides if only the content is replaced. -/
theorem render_overwrite (m : Layout) {p y : Text} (q : Text) (ne : y ≠ [])
    (quiet : ∀ k, Text.byteSize p < k → k < Text.byteSize p + Text.byteSize y → m.left k = [])
    (content : Text) (options : OverwriteMode) :
    (m.overwrite (Text.byteSize p) (Text.byteSize p + Text.byteSize y) content options).render
        (p ++ (y ++ q)) =
      m.upTo 0 p ++ (m.left (Text.byteSize p) ++
          if options.contentOnly then m.right (Text.byteSize p) else []) ++ content ++
        ((if options.contentOnly &&
              m.uncut (Text.byteSize p) (Text.byteSize p + Text.byteSize y) then
            m.left (Text.byteSize p + Text.byteSize y) else []) ++
          m.right (Text.byteSize p + Text.byteSize y)) ++
        m.after (Text.byteSize p + Text.byteSize y) q := by
  have lt : Text.byteSize p < Text.byteSize p + Text.byteSize y :=
    Nat.lt_add_of_pos_right (Text.byteSize_pos ne)
  have body : (m.overwrite (Text.byteSize p) (Text.byteSize p + Text.byteSize y) content
      options).body (Text.byteSize p) = content := by simp [overwrite, replace]
  refine (Slots.render_of_replaced (m := m.toSlots) ne (fun k hk => ?_) (fun k lo hi => ?_)
    (fun k lo => ?_) fun k lo => overwrite_body_outside lt (.inr lo)).trans ?_
  · exact ⟨overwrite_left_outside (.inl (Nat.le_of_lt hk)), overwrite_right_outside (.inl hk),
      overwrite_body_outside lt (.inl hk)⟩
  · exact overwrite_inside lo hi (quiet k lo hi)
  · exact ⟨overwrite_left_outside (.inr lo), overwrite_right_outside (.inr (Nat.le_of_lt lo))⟩
  · rw [overwrite_left_outside (.inl (Nat.le_refl _)), overwrite_right_start lt, body,
      overwrite_left_stop lt, overwrite_right_outside (.inr (Nat.le_refl _))]

/-- What an edit of a part leaves of the whole: what it puts in, with attached text around it,
between what was there. -/
theorem render_effect (m : Layout) (size : Nat) {part : Span} {p y : Text} (q : Text) {e : Edit}
    (le : part.start ≤ part.stop) (fits : e.Fits part.length)
    (start : part.start + (e.splice part.length).start = Text.byteSize p)
    (stop : part.start + (e.splice part.length).stop = Text.byteSize p + Text.byteSize y)
    (quiet : ∀ k, Text.byteSize p < k → k < Text.byteSize p + Text.byteSize y → m.left k = []) :
    (m.effect size (e.within part)).render (p ++ (y ++ q)) =
      m.upTo 0 p ++ (e.kept m.left m.right m.uncut part).around (e.splice part.length).content ++
        m.after (Text.byteSize p + Text.byteSize y) q := by
  have last : part.start + part.length = part.stop := by unfold Span.length; omega
  have point : ∀ {i : Nat}, part.start + i = Text.byteSize p →
      part.start + i = Text.byteSize p + Text.byteSize y → y = [] := by
    intro i hp hy
    by_cases ne : y = []
    · exact ne
    · have := Text.byteSize_pos ne
      omega
  cases e with
  | append content =>
    obtain rfl := point start stop
    rw [Edit.splice, last] at start
    simp [effect, Edit.within, Edit.kept, Rim.around, Edit.splice, start, render_attachRight]
    rfl
  | prepend content =>
    obtain rfl := point start stop
    rw [Edit.splice, Nat.add_zero] at start
    simp [effect, Edit.within, Edit.kept, Rim.around, Edit.splice, start, render_attachRight]
    rfl
  | appendLeft i content | prependLeft i content =>
    obtain rfl := point start stop
    rw [Edit.splice] at start
    simp [effect, Edit.within, Edit.kept, Rim.around, Edit.splice, start, render_attachLeft]
    rfl
  | appendRight i content | prependRight i content =>
    obtain rfl := point start stop
    rw [Edit.splice] at start
    simp [effect, Edit.within, Edit.kept, Rim.around, Edit.splice, start, render_attachRight]
    rfl
  | overwrite i j content options =>
    rw [Edit.splice] at start stop
    have ne : y ≠ [] := by
      rintro rfl
      have lt := fits.1
      simp only [Text.byteSize_nil] at start stop
      omega
    simp only [effect, Edit.within, Edit.kept, Rim.around, Edit.splice, start, stop,
      m.render_overwrite q ne quiet content options, List.append_assoc]
  | remove i j =>
    rw [Edit.splice] at start stop
    by_cases none : i = j
    · subst none
      obtain rfl := point start stop
      simp [effect, Edit.within, Edit.kept, Rim.around, Edit.splice, start, Slots.render_split]
    · have ne : y ≠ [] := by
        rintro rfl
        simp only [Text.byteSize_nil] at start stop
        omega
      have apart : Text.byteSize p ≠ Text.byteSize p + Text.byteSize y := by
        have := Text.byteSize_pos ne
        omega
      simp only [effect, Edit.within, Edit.kept, Rim.around, Edit.splice, start, stop, if_neg none,
        if_neg apart, m.render_overwrite q ne quiet [] {}]
      simp

end Layout

namespace Slots

/-- Up to an offset a text without edits shows itself. -/
theorem upTo_ofText (p r : Text) : (ofText (p ++ r)).upTo 0 p = p := by
  by_cases nil : p = []
  · subst nil
    rfl
  · have stop : Text.isBoundary (p ++ r) (Text.byteSize p) = true :=
      Text.isBoundary_iff.2 ⟨p, r, rfl, rfl⟩
    have part : Text.slice (p ++ r) 0 (Text.byteSize p) = p := by
      rw [Text.slice_zero, Text.takeBytes_byteSize_append]
    have copied := upTo_copied (m := ofText (p ++ r)) (Text.isBoundary_zero _) stop
      (Text.byteSize_pos nil) (fun _ _ _ => ⟨rfl, rfl⟩) fun _ _ _ => rfl
    rwa [part] at copied

/-- From an offset on a text without edits shows itself. -/
theorem after_ofText (p r : Text) : (ofText (p ++ r)).after (Text.byteSize p) r = r := by
  have whole : (ofText (p ++ r)).render (p ++ r) = p ++ r := by
    have last := (ofText (p ++ r)).render_split (p ++ r) []
    have copied := upTo_ofText (p ++ r) []
    rw [List.append_nil] at last copied
    rw [last, copied]
    simp [ofText, after]
  rw [render_split, upTo_ofText] at whole
  simpa [ofText] using whole

end Slots

namespace Layout
variable {m : Layout} {base : Text} {e : Edit}

/-- An accepted edit is a splice at boundaries in order. -/
theorem splice_of_accepts (ok : m.accepts base e = true) :
    Addressed base (e.splice (Text.byteSize base)).start (e.splice (Text.byteSize base)).stop := by
  cases e with
  | append content => exact ⟨Nat.le_refl _, Text.isBoundary_byteSize _, Text.isBoundary_byteSize _⟩
  | prepend content => exact ⟨Nat.le_refl _, Text.isBoundary_zero _, Text.isBoundary_zero _⟩
  | appendLeft i content | prependLeft i content | appendRight i content | prependRight i content =>
    have boundary := (admits_iff.1 ok).1
    exact ⟨Nat.le_refl _, boundary, boundary⟩
  | overwrite start stop content options =>
    obtain ⟨lt, hs, he⟩ := accepts_overwrite_iff.1 ok
    exact ⟨Nat.le_of_lt lt, (admits_iff.1 hs).1, (admits_iff.1 he).1⟩
  | remove start stop => exact (accepts_remove_iff.1 ok).1

/-- Seen from the whole, an edit other than one in front of everything fills the same slots. -/
theorem effect_within_self (m : Layout) (size : Nat) (other : e.operation ≠ .prepend) :
    (m.effect size (e.within ⟨0, size⟩)).toSlots = (m.effect size e).toSlots := by
  cases e with
  | prepend content => exact absurd rfl other
  | append content => rfl
  | _ => simp [Edit.within, effect]

/-- An edit of a text without edits is a splice of it. -/
theorem render_effect_ofText {t : Text} (ok : (ofText t).accepts t e = true) :
    ((ofText t).effect (Text.byteSize t) e).render t =
      t.takeBytes (e.splice (Text.byteSize t)).start ++ (e.splice (Text.byteSize t)).content ++
        t.dropBytes (e.splice (Text.byteSize t)).stop := by
  have fits := fits_of_accepts ok
  obtain ⟨le, hs, he⟩ := splice_of_accepts ok
  by_cases front : e.operation = .prepend
  · cases e with
    | prepend content =>
      have render := (ofText t).render_attachLeft [] t (content ++ ·)
      have behind : (ofText t).after (Text.byteSize []) t = t := Slots.after_ofText [] t
      rw [behind] at render
      refine render.trans ?_
      simp [Slots.upTo, ofText, Slots.ofText, Edit.splice]
    | _ => simp [Edit.operation] at front
  · rw [← effect_within_self _ _ front]
    obtain ⟨p, y, q, split, start, stop⟩ := Text.exists_parts hs he le
    have before : (ofText t).upTo 0 p = p := by
      have shown := Slots.upTo_ofText p (y ++ q)
      rwa [← split] at shown
    have behind : (ofText t).after (Text.byteSize p + Text.byteSize y) q = q := by
      have shown := Slots.after_ofText (p ++ y) q
      rwa [List.append_assoc, ← split, Text.byteSize_append] at shown
    have order : (⟨0, Text.byteSize t⟩ : Span).start ≤ Text.byteSize t := Nat.zero_le _
    have render := (ofText t).render_effect (Text.byteSize t) q order fits
      ((Nat.zero_add _).trans start) ((Nat.zero_add _).trans stop) fun _ _ _ => rfl
    have bare := Edit.kept_of_bare (ofText t).left (ofText t).right (ofText t).uncut (e := e) order
      ⟨rfl, rfl⟩ ⟨rfl, rfl⟩
    have front : t.takeBytes (Text.byteSize p) = p := by rw [split, Text.takeBytes_byteSize_append]
    have back : t.dropBytes (Text.byteSize p + Text.byteSize y) = q := by
      rw [split, ← List.append_assoc, ← Text.byteSize_append, Text.dropBytes_byteSize_append]
    rw [← split, before, behind, bare] at render
    rw [start, stop, front, back, render]
    simp [Rim.around, Span.length]

end Layout

/-- An edit that a text without edits accepts is a splice of it, at boundaries in order. -/
theorem Buffer.render_apply_ofText {t : Text} {e : Edit}
    (ok : (e.apply (ofText t)).accepted = true) :
    let s := e.splice (Text.byteSize t)
    e.Fits (Text.byteSize t) ∧ Layout.Addressed t s.start s.stop ∧
      (e.apply (ofText t)).left.render =
        t.takeBytes s.start ++ s.content ++ t.dropBytes s.stop := by
  intro s
  by_cases nil : t = []
  · subst nil
    obtain ⟨accepted, left⟩ := hollow_apply {} none e
    have fits := accepted.1 ok
    have point : s.start = 0 ∧ s.stop = 0 ∧ (Seam.step true {} e).text true = s.content := by
      cases e with
      | append content | prepend content =>
        exact ⟨rfl, rfl, by simp [s, Edit.splice, Seam.step, Seam.text]⟩
      | appendLeft i content | prependLeft i content | appendRight i content
      | prependRight i content =>
        obtain rfl := Nat.le_zero.1 fits
        exact ⟨rfl, rfl, by simp [s, Edit.splice, Seam.step, Seam.text]⟩
      | overwrite i j content options => exact absurd fits.1 (by have := fits.2; omega)
      | remove i j =>
        obtain rfl := Nat.le_zero.1 fits.2
        obtain rfl := Nat.le_zero.1 fits.1
        exact ⟨rfl, rfl, by simp [s, Edit.splice, Seam.step, Seam.text]⟩
    have render : (e.apply (ofText [])).left.render = s.content := by
      refine (congrArg Buffer.render (left fits)).trans ?_
      rw [Seam.render_buffer, point.2.2]
    refine ⟨fits, ?_⟩
    rw [point.1, point.2.1, render]
    simp [Layout.Addressed]
  · obtain ⟨accepted, next⟩ := (laidOut_ofText nil).apply e
    have base : (ofText t).base = t := rfl
    rw [base] at accepted next
    have accepts : (Layout.ofText t).accepts t e = true := by rw [← accepted, ok]
    rw [Layout.apply_of_accepts accepts] at next
    refine ⟨Layout.fits_of_accepts accepts, Layout.splice_of_accepts accepts, ?_⟩
    rw [next.render_eq, apply_base]
    exact Layout.render_effect_ofText accepts

end ComponentEdit
