import ComponentEdit.Proofs.Buffer.Layout

/-!
# Buffers refine layouts

Each elementary change of a buffer is the change of the same name of its layout
(`LaidOut.cut`, `LaidOut.attachLeft`, `LaidOut.attachRight`, `LaidOut.replaceChunks`),
so an edit is accepted by the one if it is by the other and leaves them in agreement
(`LaidOut.apply`), and so does a row of edits (`LaidOut.run`). Both render the same text
(`LaidOut.render_eq`).
-/

namespace ComponentEdit
set_option autoImplicit false

namespace Chunk
variable {base : Text} {c : Chunk} {i : Nat}

/-- Cutting a body that can be cut keeps what it shows. -/
theorem bodyAt_left (hd : c.body.isDivisible = true) (j : Nat) :
    (c.left i).bodyAt base j = c.bodyAt base j := by
  cases hb : c.body with
  | copied t => simp [bodyAt, left, Body.left, hb]
  | replaced t named =>
    have : t = [] := by simpa [Body.isDivisible, hb] using hd
    simp [bodyAt, left, Body.left, hb, this]

theorem bodyAt_right (hd : c.body.isDivisible = true) (j : Nat) :
    (c.right i).bodyAt base j = c.bodyAt base j := by
  cases hb : c.body with
  | copied t => simp [bodyAt, right, Body.right, hb]
  | replaced t named =>
    have : t = [] := by simpa [Body.isDivisible, hb] using hd
    simp [bodyAt, right, Body.right, hb, this]

theorem isDivisible_left (c : Chunk) (i : Nat) : (c.left i).body.isDivisible = true := by
  cases hb : c.body <;> simp [left, Body.left, hb, Body.isDivisible]

theorem isDivisible_right (c : Chunk) (i : Nat) : (c.right i).body.isDivisible = true := by
  cases hb : c.body <;> simp [right, Body.right, hb, Body.isDivisible]

end Chunk

namespace Chunk.Agrees
variable {base : Text} {m : Layout} {c : Chunk} {i : Nat}

theorem mark (h : c.Agrees base m) (hx : c.crosses i = false) : c.Agrees base (m.mark i) where
  before := h.before
  after := h.after
  body := h.body
  cut_start := by
    rw [Layout.mark_cut]
    split
    · exact ⟨rfl, h.cut_start.2⟩
    · exact h.cut_start
  cut_stop := by
    rw [Layout.mark_cut]
    split
    · exact ⟨rfl, h.cut_stop.2⟩
    · exact h.cut_stop
  quiet := h.quiet
  whole j lo hi := by
    have : j ≠ i := by
      rintro rfl
      simp [crosses, lo, hi] at hx
    rw [Layout.mark_cut, if_neg this]
    exact h.whole j lo hi

/-- The part before a cut agrees with the layout that is cut. -/
theorem left (h : c.Agrees base m) (cross : c.crosses i = true) (hd : c.body.isDivisible = true) :
    (c.left i).Agrees base (m.mark i) := by
  obtain ⟨lo, hi⟩ := crosses_iff.1 cross
  have whole := h.whole i lo hi
  refine ⟨h.before, (h.quiet i lo hi).1, ?_, ?_, ?_, ?_, ?_⟩
  · intro j le lt
    rw [bodyAt_left hd]
    exact h.body j le (Nat.lt_trans lt hi)
  · rw [Layout.mark_cut]
    split
    · exact ⟨rfl, h.cut_start.2⟩
    · exact h.cut_start
  · rw [hd, Bool.not_true] at whole
    exact ⟨by simp [Layout.mark_cut, Chunk.left], whole.2⟩
  · exact fun j lo' hi' => h.quiet j lo' (Nat.lt_trans hi' hi)
  · intro j lo' hi'
    have ne : j ≠ i := Nat.ne_of_lt hi'
    rw [Layout.mark_cut, if_neg ne, isDivisible_left, ← hd]
    exact h.whole j lo' (Nat.lt_trans hi' hi)

/-- The part behind a cut agrees with the layout that is cut. -/
theorem right (h : c.Agrees base m) (cross : c.crosses i = true) (hd : c.body.isDivisible = true) :
    (c.right i).Agrees base (m.mark i) := by
  obtain ⟨lo, hi⟩ := crosses_iff.1 cross
  have whole := h.whole i lo hi
  refine ⟨(h.quiet i lo hi).2, h.after, ?_, ?_, ?_, ?_, ?_⟩
  · intro j le lt
    rw [bodyAt_right hd]
    exact h.body j (Nat.le_trans (Nat.le_of_lt lo) le) lt
  · rw [hd, Bool.not_true] at whole
    exact ⟨by simp [Layout.mark_cut, Chunk.right], whole.2⟩
  · rw [Layout.mark_cut]
    split
    · exact ⟨rfl, h.cut_stop.2⟩
    · exact h.cut_stop
  · exact fun j lo' hi' => h.quiet j (Nat.lt_trans lo lo') hi'
  · intro j lo' hi'
    have ne : j ≠ i := Nat.ne_of_gt lo'
    rw [Layout.mark_cut, if_neg ne, isDivisible_right, ← hd]
    exact h.whole j (Nat.lt_trans lo lo') hi'

theorem attachLeft (h : c.Agrees base m) (hx : c.crosses i = false) (f : Text → Text) :
    (if c.stop == i then { c with after := f c.after } else c).Agrees base (m.attachLeft i f) := by
  have quiet : ∀ j, c.start < j → j < c.stop →
      (m.attachLeft i f).left j = [] ∧ (m.attachLeft i f).right j = [] := by
    intro j lo hi
    have ne : j ≠ i := by
      rintro rfl
      simp [crosses, lo, hi] at hx
    exact ⟨by simpa [Layout.attachLeft, Slots.attachLeft, ne] using (h.quiet j lo hi).1,
      (h.quiet j lo hi).2⟩
  by_cases e : c.stop = i
  · subst e
    simp only [beq_self_eq_true, if_true]
    exact ⟨h.before, by simp [Layout.attachLeft, Slots.attachLeft, h.after], h.body, h.cut_start,
      h.cut_stop, quiet, h.whole⟩
  · simp only [beq_eq_false_iff_ne.2 e, Bool.false_eq_true, if_false]
    exact ⟨h.before, by simpa [Layout.attachLeft, Slots.attachLeft, e] using h.after, h.body,
      h.cut_start, h.cut_stop, quiet, h.whole⟩

theorem attachRight (h : c.Agrees base m) (hx : c.crosses i = false) (f : Text → Text) :
    (if c.start == i then { c with before := f c.before } else c).Agrees base
      (m.attachRight i f) := by
  have quiet : ∀ j, c.start < j → j < c.stop →
      (m.attachRight i f).left j = [] ∧ (m.attachRight i f).right j = [] := by
    intro j lo hi
    have ne : j ≠ i := by
      rintro rfl
      simp [crosses, lo, hi] at hx
    exact ⟨(h.quiet j lo hi).1,
      by simpa [Layout.attachRight, Slots.attachRight, ne] using (h.quiet j lo hi).2⟩
  by_cases e : c.start = i
  · subst e
    simp only [beq_self_eq_true, if_true]
    exact ⟨by simp [Layout.attachRight, Slots.attachRight, h.before], h.after, h.body, h.cut_start,
      h.cut_stop, quiet, h.whole⟩
  · simp only [beq_eq_false_iff_ne.2 e, Bool.false_eq_true, if_false]
    exact ⟨by simpa [Layout.attachRight, Slots.attachRight, e] using h.before, h.after, h.body,
      h.cut_start, h.cut_stop, quiet, h.whole⟩

section Replace
variable {start stop : Nat} {content : Text} {options : OverwriteMode}

/-- A chunk outside of a range does not notice that it is replaced. -/
theorem replace_outside (h : c.Agrees base m) (lt : c.start < c.stop) (range : start < stop)
    (out : c.stop ≤ start ∨ stop ≤ c.start) :
    c.Agrees base (m.replace start stop content options) := by
  have left : ∀ i, c.start < i → i ≤ c.stop →
      (m.replace start stop content options).left i = m.left i := by
    intro i lo hi
    have : ¬(start < i ∧ i ≤ stop) := by omega
    simp [Layout.replace, this]
  have right : ∀ i, c.start ≤ i → i < c.stop →
      (m.replace start stop content options).right i = m.right i := by
    intro i lo hi
    have : ¬(start ≤ i ∧ i < stop) := by omega
    simp [Layout.replace, this]
  have sealed : ∀ i, c.start ≤ i → i ≤ c.stop →
      (m.replace start stop content options).sealed i = m.sealed i := by
    intro i lo hi
    have : ¬(start < i ∧ i < stop) := by omega
    simp [Layout.replace, this]
  constructor
  · rw [right _ (Nat.le_refl _) lt]
    exact h.before
  · rw [left _ lt (Nat.le_refl _)]
    exact h.after
  · intro i lo hi
    have at_start : i ≠ start := by omega
    have inside : ¬(start < i ∧ i < stop) := by omega
    simpa [Layout.replace, at_start, inside] using h.body i lo hi
  · rw [sealed _ (Nat.le_refl _) (Nat.le_of_lt lt)]
    exact h.cut_start
  · rw [sealed _ (Nat.le_of_lt lt) (Nat.le_refl _)]
    exact h.cut_stop
  · intro i lo hi
    rw [left i lo (Nat.le_of_lt hi), right i (Nat.le_of_lt lo) hi]
    exact h.quiet i lo hi
  · intro i lo hi
    rw [sealed i (Nat.le_of_lt lo) (Nat.le_of_lt hi)]
    exact h.whole i lo hi

/-- The first chunk of a range that is replaced takes the content. -/
theorem replace_first (h : c.Agrees base m) (lt : c.start < c.stop) (le : c.stop ≤ stop) :
    (c.replace content options.storeName options.contentOnly).Agrees base
      (m.replace c.start stop content options) := by
  have uncut : ∀ i, i ≤ c.stop → m.uncut c.start i = true := fun i hi =>
    Layout.uncut_iff.2 fun k lo hk => (h.whole k lo (by omega)).1
  constructor
  · have : c.start < stop := by omega
    by_cases keep : options.contentOnly = true <;>
      simp [Layout.replace, Chunk.replace, keep, this, h.before]
  · by_cases keep : options.contentOnly = true <;>
      simp [Layout.replace, Chunk.replace, keep, lt, le, uncut _ (Nat.le_refl _), h.after]
  · intro i lo hi
    simp only [Chunk.replace] at lo hi
    by_cases at_start : i = c.start
    · simp [Layout.replace, bodyAt, Chunk.replace, at_start]
    · have : c.start < i ∧ i < stop := by omega
      simp [Layout.replace, bodyAt, Chunk.replace, at_start, this]
  · simpa [Layout.replace, Chunk.replace] using h.cut_start
  · refine ⟨h.cut_stop.1, ?_⟩
    have met : m.uncut c.start (c.stop + 1) = false := by
      rw [← Bool.not_eq_true, Layout.uncut_iff]
      intro none
      simpa [h.cut_stop.1] using none c.stop lt (Nat.lt_succ_self _)
    simp [Layout.replace, Chunk.replace, met, h.cut_stop.2]
  · intro i lo hi
    simp only [Chunk.replace] at lo hi
    have quiet := h.quiet i lo hi
    simp [Layout.replace, quiet]
  · intro i lo hi
    simp only [Chunk.replace] at lo hi
    have inside : c.start < i ∧ i < stop := by omega
    refine ⟨(h.whole i lo hi).1, ?_⟩
    simp [Layout.replace, Chunk.replace, inside, uncut (i + 1) (by omega), Body.isDivisible]

/-- The other chunks of a range that is replaced become blank. -/
theorem replace_later (h : c.Agrees base m) (lt : c.start < c.stop) (lo : start < c.start)
    (le : c.stop ≤ stop) : c.blank.Agrees base (m.replace start stop content options) := by
  -- a cut lies between the start of the range and everything behind the start of `c`
  have met : ∀ i, c.start < i → m.uncut start i = false := by
    intro i hi
    rw [← Bool.not_eq_true, Layout.uncut_iff]
    intro none
    simpa [h.cut_start.1] using none c.start lo hi
  have sealed : ∀ i, c.start ≤ i → i ≤ c.stop → m.sealed i = false ∨ i < c.stop →
      (m.replace start stop content options).sealed i = false := by
    intro i hlo hhi hs
    by_cases inside : start < i ∧ i < stop
    · simp [Layout.replace, inside, met (i + 1) (by omega)]
    · rcases hs with hs | hs
      · simp [Layout.replace, inside, hs]
      · omega
  constructor
  · have : start ≤ c.start ∧ c.start < stop := by omega
    have ne : c.start ≠ start := by omega
    simp [Layout.replace, blank, Chunk.replace, this, ne]
  · have : start < c.stop ∧ c.stop ≤ stop := by omega
    simp [Layout.replace, blank, Chunk.replace, this, met _ lt]
  · intro i hlo hhi
    simp only [blank, Chunk.replace] at hlo hhi
    have ne : i ≠ start := by omega
    have inside : start < i ∧ i < stop := by omega
    simp [Layout.replace, bodyAt, blank, Chunk.replace, ne, inside]
  · exact ⟨h.cut_start.1, sealed _ (Nat.le_refl _) (Nat.le_of_lt lt) (.inl h.cut_start.2)⟩
  · exact ⟨h.cut_stop.1, sealed _ (Nat.le_of_lt lt) (Nat.le_refl _) (.inl h.cut_stop.2)⟩
  · intro i hlo hhi
    have quiet := h.quiet i hlo hhi
    simp [Layout.replace, quiet]
  · intro i hlo hhi
    refine ⟨(h.whole i hlo hhi).1, ?_⟩
    rw [sealed i (Nat.le_of_lt hlo) (Nat.le_of_lt hhi) (.inr hhi)]
    rfl

end Replace

/-- A chunk renders as the stretch of the layout that it covers. -/
theorem render_eq (h : c.Agrees base m) (placed : c.Placed base) (ne : base ≠ []) :
    c.render = m.stretch c.start (Text.slice base c.start c.stop) := by
  have lt := placed.forward ne
  have shown : ∀ i, c.start ≤ i → i < c.stop → m.body i = c.bodyAt base i := h.body
  cases hb : c.body with
  | copied t =>
    have own : ∀ i, c.start ≤ i → i < c.stop → m.body i = Text.charAt base i := by
      simpa only [bodyAt, hb] using shown
    rw [Slots.stretch_copied placed.start_boundary placed.stop_boundary lt h.quiet own, h.before,
      h.after, render, hb, Body.text, placed.copied t hb]
  | replaced t named =>
    have filled := Text.slice_ne_nil placed.start_boundary placed.stop_boundary lt
    have stop := Text.add_byteSize_slice placed.start_boundary placed.stop_boundary placed.le
    have own : ∀ i, c.start ≤ i → i < c.stop → m.body i = if i = c.start then t else [] := by
      simpa only [bodyAt, hb] using shown
    have blank : ∀ i, c.start < i → i < c.stop → m.body i = [] := fun i lo hi => by
      rw [own i (Nat.le_of_lt lo) hi, if_neg (Nat.ne_of_gt lo)]
    rw [Slots.stretch_of_quiet filled (by rw [stop]; exact h.quiet), stop,
      Slots.bodies_of_replaced filled (by rw [stop]; exact blank), own _ (Nat.le_refl _) lt, if_pos rfl,
      h.before, h.after, render, hb, Body.text]

end Chunk.Agrees

namespace Buffer
variable {b : Buffer} {m : Layout} {i : Nat}

theorem laidOut_ofText {t : Text} (ne : t ≠ []) : (ofText t).LaidOut (.ofText t) where
  tiled := tiled_ofText t
  base_ne := ne
  front := rfl
  back := rfl
  chunks c hc := by
    rw [ofText, List.mem_singleton] at hc
    subst hc
    refine ⟨rfl, rfl, fun _ _ _ => rfl, ?_, ?_, fun _ _ _ => ⟨rfl, rfl⟩, ?_⟩
    · simp [Layout.ofText, Chunk.ofText]
    · simp [Layout.ofText, Chunk.ofText]
    · intro i lo hi
      simp only [Chunk.ofText] at lo hi
      refine ⟨?_, rfl⟩
      simp only [Layout.ofText, Bool.or_eq_false_iff, beq_eq_false_iff_ne]
      omega

namespace LaidOut

/-- The file name plays no part. -/
theorem renamed (h : b.LaidOut m) (filename : Option String) :
    LaidOut { b with filename := filename } m :=
  ⟨⟨h.tiled.tiles, h.tiled.single⟩, h.base_ne, h.front, h.back, h.chunks⟩

theorem base_pos (h : b.LaidOut m) : 0 < Text.byteSize b.base := Text.byteSize_pos h.base_ne

theorem forward (h : b.LaidOut m) {c : Chunk} (hc : c ∈ b.chunks) : c.start < c.stop :=
  (h.tiled.tiles.placed hc).forward h.base_ne

/-- Where no chunk lies across an offset, the layout has a cut that is not sealed. -/
theorem cut_of_parted (h : b.LaidOut m) (hp : b.Parted i) (le : i ≤ Text.byteSize b.base) :
    m.cut i = true ∧ m.sealed i = false := by
  by_cases lt : i < Text.byteSize b.base
  · obtain ⟨c, hc, rfl⟩ := h.tiled.exists_start hp lt
    exact (h.chunks c hc).cut_start
  · have pos := h.base_pos
    obtain ⟨c, hc, rfl⟩ := h.tiled.exists_stop hp (by omega) le
    exact (h.chunks c hc).cut_stop

/-- A cut that the layout admits goes through. -/
theorem cut (h : b.LaidOut m) (ok : m.admits b.base i = true) :
    b.cut i = .ok (b.divide i) ∧ (b.divide i).LaidOut (m.mark i) := by
  simp only [Layout.admits, Bool.and_eq_true, Bool.not_eq_true'] at ok
  have divisible : ∀ c ∈ b.chunks, c.crosses i = true → c.body.isDivisible = true := by
    intro c hc cross
    have lt := Chunk.crosses_iff.1 cross
    have whole := ((h.chunks c hc).whole i lt.1 lt.2).2
    rw [ok.2] at whole
    simpa using whole.symm
  refine ⟨cut_of_divisible ok.1 divisible, h.tiled.divide ok.1, h.base_ne, h.front, h.back, ?_⟩
  intro d hd
  obtain ⟨c, hc, hd⟩ := List.mem_flatMap.1 hd
  unfold Chunk.divide at hd
  split at hd
  · rename_i cross
    have agrees := h.chunks c hc
    simp only [List.mem_cons, List.not_mem_nil, or_false] at hd
    rcases hd with rfl | rfl
    · exact agrees.left cross (divisible c hc cross)
    · exact agrees.right cross (divisible c hc cross)
  · rename_i cross
    rw [List.mem_singleton.1 hd]
    exact (h.chunks c hc).mark (by simpa using cross)

/-- A cut that the layout does not admit is refused. -/
theorem cut_refused (h : b.LaidOut m) (no : m.admits b.base i = false) :
    ∃ e, b.cut i = .error e := by
  cases hi : Text.isBoundary b.base i with
  | false => exact cut_of_not_boundary hi
  | true =>
    have sealed : m.sealed i = true := by simpa [Layout.admits, hi] using no
    have across : ¬b.Parted i := fun hp => by
      have := (h.cut_of_parted hp (Text.le_byteSize_of_isBoundary hi)).2
      simp [sealed] at this
    simp only [Parted, Classical.not_forall, Bool.not_eq_false] at across
    obtain ⟨c, hc, cross⟩ := across
    have lt := Chunk.crosses_iff.1 cross
    have whole := ((h.chunks c hc).whole i lt.1 lt.2).2
    rw [sealed] at whole
    exact ⟨_, h.tiled.cut_of_not_divisible hi hc cross (by simpa using whole.symm)⟩

theorem attachLeft (h : b.LaidOut m) (hp : b.Parted i) (le : i ≤ Text.byteSize b.base)
    (f : Text → Text) : (b.attachLeft i f).LaidOut (m.attachLeft i f) := by
  have tiled := h.tiled.attachLeft i f
  unfold Buffer.attachLeft at tiled ⊢
  split
  · rename_i any
    obtain ⟨c, hc, stop⟩ := List.any_eq_true.1 any
    have pos : 0 ≠ i := by
      have := h.forward hc
      rw [beq_iff_eq] at stop
      omega
    refine ⟨by simpa [any] using tiled, h.base_ne, ?_, h.back, ?_⟩
    · simpa [Layout.attachLeft, Slots.attachLeft, pos] using h.front
    · intro d hd
      obtain ⟨c, hc, rfl⟩ := List.mem_map.1 hd
      exact (h.chunks c hc).attachLeft (hp c hc) f
  · rename_i none
    have none : ∀ c ∈ b.chunks, c.stop ≠ i := by simpa using none
    have zero : i = 0 := by
      by_cases pos : 0 < i
      · obtain ⟨c, hc, stop⟩ := h.tiled.exists_stop hp pos le
        exact absurd stop (none c hc)
      · omega
    subst zero
    refine ⟨⟨h.tiled.tiles, h.tiled.single⟩, h.base_ne, ?_, h.back, ?_⟩
    · simp [Layout.attachLeft, Slots.attachLeft, h.front]
    · intro c hc
      simpa [none c hc] using (h.chunks c hc).attachLeft (hp c hc) f

theorem attachRight (h : b.LaidOut m) (hp : b.Parted i) (le : i ≤ Text.byteSize b.base)
    (f : Text → Text) : (b.attachRight i f).LaidOut (m.attachRight i f) := by
  have tiled := h.tiled.attachRight i f
  unfold Buffer.attachRight at tiled ⊢
  split
  · rename_i any
    obtain ⟨c, hc, start⟩ := List.any_eq_true.1 any
    have ne : Text.byteSize b.base ≠ i := by
      have := h.forward hc
      have := (h.tiled.tiles.within hc).2
      rw [beq_iff_eq] at start
      omega
    refine ⟨by simpa [any] using tiled, h.base_ne, h.front, ?_, ?_⟩
    · simpa [Layout.attachRight, Slots.attachRight, ne] using h.back
    · intro d hd
      obtain ⟨c, hc, rfl⟩ := List.mem_map.1 hd
      exact (h.chunks c hc).attachRight (hp c hc) f
  · rename_i none
    have none : ∀ c ∈ b.chunks, c.start ≠ i := by simpa using none
    have last : i = Text.byteSize b.base := by
      by_cases lt : i < Text.byteSize b.base
      · obtain ⟨c, hc, start⟩ := h.tiled.exists_start hp lt
        exact absurd start (none c hc)
      · omega
    subst last
    refine ⟨⟨h.tiled.tiles, h.tiled.single⟩, h.base_ne, h.front, ?_, ?_⟩
    · simp [Layout.attachRight, Slots.attachRight, h.back]
    · intro c hc
      simpa [none c hc] using (h.chunks c hc).attachRight (hp c hc) f

theorem replaceChunks (h : b.LaidOut m) {start stop : Nat} (lt : start < stop)
    (le : stop ≤ Text.byteSize b.base) (hs : b.Parted start) (he : b.Parted stop) (content : Text)
    (options : OverwriteMode) :
    (b.replaceChunks start stop content options).LaidOut (m.replace start stop content options) := by
  refine ⟨h.tiled.replaceChunks start stop content options, h.base_ne, ?_, ?_, ?_⟩
  · simpa [Layout.replace, Buffer.replaceChunks] using h.front
  · have : ¬(start ≤ Text.byteSize b.base ∧ Text.byteSize b.base < stop) := by omega
    simpa [Layout.replace, Buffer.replaceChunks, this] using h.back
  · intro d hd
    obtain ⟨c, hc, rfl⟩ := List.mem_map.1 hd
    have agrees := h.chunks c hc
    have forward := h.forward hc
    have apart_start := hs c hc
    have apart_stop := he c hc
    simp only [Chunk.crosses, Bool.and_eq_false_iff, decide_eq_false_iff_not] at apart_start apart_stop
    by_cases first : c.start = start
    · subst first
      simpa [Buffer.replaceChunks] using agrees.replace_first forward (by omega)
    · by_cases inside : start < c.start ∧ c.start < stop
      · simpa [Buffer.replaceChunks, first, inside] using
          agrees.replace_later forward inside.1 (by omega)
      · simpa [Buffer.replaceChunks, first, inside] using
          agrees.replace_outside forward lt (by omega)

theorem append (h : b.LaidOut m) (content : Text) :
    (b.append content).LaidOut (m.attachRight (Text.byteSize b.base) (· ++ content)) := by
  refine ⟨⟨h.tiled.tiles, h.tiled.single⟩, h.base_ne, h.front, ?_, ?_⟩
  · simp [Layout.attachRight, Slots.attachRight, Buffer.append, h.back]
  · intro c hc
    have stop := (h.tiled.tiles.within hc).2
    have start : c.start ≠ Text.byteSize b.base := Nat.ne_of_lt (Nat.lt_of_lt_of_le (h.forward hc) stop)
    have apart : c.crosses (Text.byteSize b.base) = false := by simp [Chunk.crosses]; omega
    simpa [Buffer.append, start] using (h.chunks c hc).attachRight apart (· ++ content)

theorem prepend (h : b.LaidOut m) (content : Text) :
    (b.prepend content).LaidOut (m.attachLeft 0 (content ++ ·)) := by
  refine ⟨⟨h.tiled.tiles, h.tiled.single⟩, h.base_ne, ?_, h.back, ?_⟩
  · simp [Layout.attachLeft, Slots.attachLeft, Buffer.prepend, h.front]
  · intro c hc
    have stop : c.stop ≠ 0 := Nat.ne_of_gt (Nat.lt_of_le_of_lt (Nat.zero_le _) (h.forward hc))
    have apart : c.crosses 0 = false := by simp [Chunk.crosses]
    simpa [Buffer.prepend, stop] using (h.chunks c hc).attachLeft apart (content ++ ·)

/-- A change behind a cut, when it is made in buffer and layout alike. -/
theorem behindCut (h : b.LaidOut m) (i : Nat) (change : Buffer → Buffer) (change' : Layout → Layout)
    (hn : i ≤ Text.byteSize b.base → (b.divide i).LaidOut (m.mark i) →
      (change (b.divide i)).LaidOut (change' (m.mark i))) :
    let a := b.atCut i fun b => .done (change b)
    a.accepted = m.admits b.base i ∧
      a.left.LaidOut (if m.admits b.base i = true then change' (m.mark i) else m) := by
  intro a
  cases ok : m.admits b.base i with
  | true =>
    obtain ⟨hc, laid⟩ := h.cut ok
    have ha : a = .done (change (b.divide i)) := by simp [a, Buffer.atCut, hc]
    rw [ha]
    exact ⟨rfl, by simpa using hn (Layout.le_of_admits ok) laid⟩
  | false =>
    obtain ⟨e, hc⟩ := h.cut_refused ok
    have ha : a = .refused b e := by simp [a, Buffer.atCut, hc]
    rw [ha]
    exact ⟨rfl, by simpa using h⟩

/-- A range that passes the check is replaced if both its ends can be cut; if only the
start can, that cut is what is left. -/
theorem range (h : b.LaidOut m) {start stop : Nat} (lt : start < stop)
    (ok : b.checkRange start stop = .ok ()) (content : Text) (options : OverwriteMode) :
    let a := b.atCut start fun b => b.atCut stop fun b =>
      .done (b.replaceChunks start stop content options)
    a.accepted = (m.admits b.base start && m.admits b.base stop) ∧
      a.left.LaidOut (if (m.admits b.base start && m.admits b.base stop) = true then
        m.overwrite start stop content options else m.halfway b.base start stop) := by
  intro a
  obtain ⟨-, -, he⟩ := checkRange_eq_ok.1 ok
  cases first : m.admits b.base start with
  | false =>
    obtain ⟨err, hc⟩ := h.cut_refused first
    have ha : a = .refused b err := by simp [a, Buffer.atCut, hc]
    rw [ha]
    exact ⟨rfl, by simpa [Layout.halfway, first] using h⟩
  | true =>
    obtain ⟨hc, laid⟩ := h.cut first
    have ha : a = (b.divide start).atCut stop fun b =>
        .done (b.replaceChunks start stop content options) := by simp [a, Buffer.atCut, hc]
    have second := laid.behindCut stop (·.replaceChunks start stop content options)
      (·.replace start stop content options) fun le laid' =>
        laid'.replaceChunks lt le ((parted_divide b start).divide stop) (parted_divide _ stop)
          content options
    rw [ha]
    refine ⟨second.1, ?_⟩
    have admits : (m.mark start).admits (b.divide start).base stop = m.admits b.base stop := rfl
    rw [admits] at second
    cases last : m.admits b.base stop with
    | true => simpa [last, Layout.overwrite] using second.2
    | false => simpa [last, Layout.halfway, lt, first, he] using second.2

/-- An edit is accepted by a buffer if it is by its layout, and leaves them in agreement. -/
theorem apply (h : b.LaidOut m) (e : Edit) :
    (e.apply b).accepted = m.accepts b.base e ∧ (e.apply b).left.LaidOut (m.apply b.base e) := by
  cases e with
  | append content => exact ⟨rfl, h.append content⟩
  | prepend content => exact ⟨rfl, h.prepend content⟩
  | appendLeft i content =>
    exact h.behindCut i (·.attachLeft i (· ++ content)) (·.attachLeft i (· ++ content))
      fun le laid => laid.attachLeft (parted_divide b i) le (· ++ content)
  | appendRight i content =>
    exact h.behindCut i (·.attachRight i (· ++ content)) (·.attachRight i (· ++ content))
      fun le laid => laid.attachRight (parted_divide b i) le (· ++ content)
  | prependLeft i content =>
    exact h.behindCut i (·.attachLeft i (content ++ ·)) (·.attachLeft i (content ++ ·))
      fun le laid => laid.attachLeft (parted_divide b i) le (content ++ ·)
  | prependRight i content =>
    exact h.behindCut i (·.attachRight i (content ++ ·)) (·.attachRight i (content ++ ·))
      fun le laid => laid.attachRight (parted_divide b i) le (content ++ ·)
  | overwrite start stop content options =>
    simp only [Edit.apply, Buffer.overwrite]
    cases hr : b.checkRange start stop with
    | error err =>
      have no : ¬Layout.Addressed b.base start stop := fun ok => by simp [checkRange_eq_ok.2 ok] at hr
      have accepts : m.accepts b.base (.overwrite start stop content options) = false := by
        rw [← Bool.not_eq_true, Layout.accepts_overwrite_iff]
        rintro ⟨lt, hs, he⟩
        exact no ⟨Nat.le_of_lt lt, (Layout.admits_iff.1 hs).1, (Layout.admits_iff.1 he).1⟩
      exact ⟨accepts.symm, by simpa [Layout.apply, accepts, Layout.halfway_of_not_addressed no] using h⟩
    | ok u =>
      by_cases eq : start = stop
      · simpa [eq, Layout.apply, Layout.accepts, Layout.halfway] using h
      · have lt : start < stop := by have := (checkRange_eq_ok.1 hr).1; omega
        simpa [eq, Layout.apply, Layout.accepts, Layout.effect, lt] using h.range lt hr content options
  | remove start stop =>
    simp only [Edit.apply, Buffer.remove]
    cases hr : b.checkRange start stop with
    | error err =>
      have no : ¬Layout.Addressed b.base start stop := fun ok => by simp [checkRange_eq_ok.2 ok] at hr
      have accepts : m.accepts b.base (.remove start stop) = false := by
        rw [← Bool.not_eq_true, Layout.accepts_remove_iff]
        exact fun ok => no ok.1
      exact ⟨accepts.symm, by simpa [Layout.apply, accepts, Layout.halfway_of_not_addressed no] using h⟩
    | ok u =>
      obtain ⟨le, hs, he⟩ := checkRange_eq_ok.1 hr
      by_cases eq : start = stop
      · subst eq
        simpa [Layout.apply, Layout.accepts, Layout.effect, hs] using h
      · have lt : start < stop := by omega
        have apart : (start == stop) = false := beq_eq_false_iff_ne.2 eq
        simpa [eq, apart, Layout.apply, Layout.accepts, Layout.effect, le, hs, he, Layout.admits]
          using h.range lt hr [] {}

/-- Chunks that tile a part of the base render as the stretch of the layout over it. -/
theorem render_tiles {base : Text} (ne : base ≠ []) {cs : List Chunk} {lo hi : Nat}
    (tiles : Tiles base lo cs hi) (agrees : ∀ c ∈ cs, c.Agrees base m)
    (hhi : Text.isBoundary base hi = true) :
    cs.flatMap Chunk.render = m.stretch lo (Text.slice base lo hi) := by
  induction cs generalizing lo with
  | nil =>
    simp only [Tiles] at tiles
    simp [tiles, Slots.stretch]
  | cons c cs ih =>
    obtain ⟨rfl, placed, rest⟩ := tiles
    have stop := Text.add_byteSize_slice placed.start_boundary placed.stop_boundary placed.le
    rw [List.flatMap_cons, (agrees c List.mem_cons_self).render_eq placed ne,
      ih rest fun d hd => agrees d (List.mem_cons_of_mem _ hd),
      ← Text.slice_append_slice placed.start_boundary placed.stop_boundary hhi placed.le rest.le,
      Slots.stretch_append, stop]

/-- A buffer renders as its layout does. -/
theorem render_eq (h : b.LaidOut m) : b.render = m.render b.base := by
  rw [Buffer.render, render_tiles h.base_ne h.tiled.tiles h.chunks (Text.isBoundary_byteSize _),
    Text.slice_whole, Slots.render, Slots.renderFrom_eq, h.front, Nat.zero_add, h.back]

/-- Edits of a buffer and of its layout leave them in agreement. -/
theorem run (h : b.LaidOut m) (edits : List Edit) : (b.run edits).LaidOut (m.run b.base edits) := by
  induction edits generalizing b m with
  | nil => exact h
  | cons e edits ih =>
    have rest := ih (h.apply e).2
    rw [apply_base] at rest
    exact rest

end LaidOut

/-- Edits of a text that is not empty lay it out, whatever the buffer is named. -/
theorem laidOut_reached {t : Text} (ne : t ≠ []) (filename : Option String) (edits : List Edit) :
    ∃ m, LaidOut { (ofText t).run edits with filename } m := by
  exact ⟨_, ((laidOut_ofText ne).run edits).renamed filename⟩

end Buffer

end ComponentEdit
