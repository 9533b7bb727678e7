import ComponentEdit.Proofs.Buffer.Slots

/-!
# Texts woven from parts

Slots that were written to only within some spans of the base render as the base with
the spans exchanged: what lies between them is copied (`stretch_copied`), and each of
them shows its own slots (`render_weave`). The spans have to be spaced, since two that
meet share the slots between them.
-/

namespace ComponentEdit
set_option autoImplicit false

/-- The text `t` from `pos` on, with other texts in place of some of its spans. -/
def Text.weave (t : Text) : Nat → List (Span × Text) → Text
  | pos, [] => dropBytes t pos
  | pos, (s, x) :: parts => slice t pos s.start ++ x ++ weave t s.stop parts

/-- A span from one boundary of a text to another. -/
structure Span.Fits (t : Text) (s : Span) : Prop where
  le : s.start ≤ s.stop
  start : Text.isBoundary t s.start = true
  stop : Text.isBoundary t s.stop = true

/-- Spans in order with something between any two of them. -/
def Span.Spaced (spans : List Span) : Prop := spans.Pairwise (·.stop < ·.start)

instance (spans : List Span) : Decidable (Span.Spaced spans) :=
  inferInstanceAs (Decidable (spans.Pairwise (·.stop < ·.start)))

namespace Slots
variable {t : Text} {m : Slots} {i j : Nat}

/-- What is shown from the first body of `t`, which starts at `i`, to its end. -/
def after (m : Slots) : Nat → Text → Text
  | _, [] => []
  | i, c :: t => m.body i ++ m.renderFrom (i + c.utf8Size) t

/-- Nothing is attached outside of some spans, and the characters there are themselves. -/
structure Clean (t : Text) (spans : List Span) (m : Slots) : Prop where
  left : ∀ i, (∀ s ∈ spans, i < s.start ∨ s.stop < i) → m.left i = []
  right : ∀ i, (∀ s ∈ spans, i < s.start ∨ s.stop < i) → m.right i = []
  body : ∀ i, (∀ s ∈ spans, i < s.start ∨ s.stop ≤ i) → m.body i = Text.charAt t i

theorem clean_ofText (t : Text) (spans : List Span) : (ofText t).Clean t spans :=
  ⟨fun _ _ => rfl, fun _ _ => rfl, fun _ _ => rfl⟩

/-- Slots that are clean outside of some spans are so outside of more of them. -/
theorem Clean.mono {spans spans' : List Span} (h : m.Clean t spans) (sub : spans ⊆ spans') :
    m.Clean t spans' where
  left i out := h.left i fun s hs => out s (sub hs)
  right i out := h.right i fun s hs => out s (sub hs)
  body i out := h.body i fun s hs => out s (sub hs)

theorem renderFrom_eq_after (m : Slots) (i : Nat) (t : Text) :
    m.renderFrom i t = m.left i ++ m.right i ++ m.after i t := by
  cases t <;> simp [renderFrom, after]

section Shift
variable {m' : Slots}

/-- Slots that say the same, seen from two offsets, render the same. -/
theorem renderFrom_congr (slots : ∀ k ≤ Text.byteSize t,
      m.left (i + k) = m'.left (j + k) ∧ m.right (i + k) = m'.right (j + k))
    (bodies : ∀ k < Text.byteSize t, m.body (i + k) = m'.body (j + k)) :
    m.renderFrom i t = m'.renderFrom j t := by
  induction t generalizing i j with
  | nil =>
    have here := slots 0 (Nat.zero_le _)
    simp only [Nat.add_zero] at here
    simp [renderFrom, here]
  | cons c t ih =>
    have pos := c.utf8Size_pos
    have here := slots 0 (Nat.zero_le _)
    have first := bodies 0 (by simp only [Text.byteSize_cons]; omega)
    simp only [Nat.add_zero] at here first
    have rest := ih (i := i + c.utf8Size) (j := j + c.utf8Size)
      (fun k hk => by
        simpa [Nat.add_assoc] using slots (c.utf8Size + k) (by simp only [Text.byteSize_cons]; omega))
      (fun k hk => by
        simpa [Nat.add_assoc] using bodies (c.utf8Size + k) (by simp only [Text.byteSize_cons]; omega))
    simp [renderFrom, here, first, rest]

theorem after_congr (slots : ∀ k, 0 < k → k ≤ Text.byteSize t →
      m.left (i + k) = m'.left (j + k) ∧ m.right (i + k) = m'.right (j + k))
    (bodies : ∀ k < Text.byteSize t, m.body (i + k) = m'.body (j + k)) :
    m.after i t = m'.after j t := by
  cases t with
  | nil => rfl
  | cons c t =>
    have pos := c.utf8Size_pos
    have first := bodies 0 (by simp only [Text.byteSize_cons]; omega)
    simp only [Nat.add_zero] at first
    have rest : m.renderFrom (i + c.utf8Size) t = m'.renderFrom (j + c.utf8Size) t :=
      renderFrom_congr
        (fun k hk => by
          simpa [Nat.add_assoc] using
            slots (c.utf8Size + k) (by omega) (by simp only [Text.byteSize_cons]; omega))
        (fun k hk => by
          simpa [Nat.add_assoc] using
            bodies (c.utf8Size + k) (by simp only [Text.byteSize_cons]; omega))
    simp [after, first, rest]

end Shift

section Weave
variable {spans done : List Span} {pos : Nat}

/-- What spans show of their own slots. -/
def parts (m : Slots) (t : Text) (spans : List Span) : List (Span × Text) :=
  spans.map fun s => (s, m.renderFrom s.start (Text.slice t s.start s.stop))

/-- Behind spans that are done, up to the next one, everything is copied. -/
theorem Clean.stretch_gap (clean : m.Clean t (done ++ spans)) (past : ∀ s ∈ done, s.stop ≤ pos)
    (hpos : Text.isBoundary t pos = true) (hj : Text.isBoundary t j = true) (lt : pos < j)
    (ahead : ∀ s ∈ spans, j ≤ s.start) :
    m.stretch pos (Text.slice t pos j) = m.right pos ++ Text.slice t pos j ++ m.left j := by
  have outside : ∀ k, pos < k → k < j → ∀ s ∈ done ++ spans, k < s.start ∨ s.stop < k := by
    intro k lo hi s hs
    rcases List.mem_append.1 hs with hs | hs
    · have := past s hs
      omega
    · have := ahead s hs
      omega
  refine stretch_copied hpos hj lt (fun k lo hi => ?_) fun k lo hi => clean.body k fun s hs => ?_
  · exact ⟨clean.left k (outside k lo hi), clean.right k (outside k lo hi)⟩
  · rcases List.mem_append.1 hs with hs | hs
    · have := past s hs
      omega
    · have := ahead s hs
      omega

/-- The slots behind `pos`, where the spans that are done end. -/
theorem Clean.stretch_weave (clean : m.Clean t (done ++ spans)) (past : ∀ s ∈ done, s.stop ≤ pos)
    (fits : ∀ s ∈ spans, s.Fits t) (hpos : Text.isBoundary t pos = true)
    (ahead : ∀ s ∈ spans, pos < s.start) (spaced : Span.Spaced spans) :
    m.stretch pos (Text.dropBytes t pos) ++ m.right (Text.byteSize t) =
      m.right pos ++ t.weave pos (m.parts t spans) := by
  have le := Text.le_byteSize_of_isBoundary hpos
  induction spans generalizing done pos with
  | nil =>
    rcases Nat.lt_or_eq_of_le le with lt | rfl
    · have gap := clean.stretch_gap past hpos (Text.isBoundary_byteSize t) lt (by simp)
      have outside : ∀ s ∈ done ++ [], Text.byteSize t < s.start ∨ s.stop < Text.byteSize t := by
        intro s hs
        have := past s (by simpa using hs)
        omega
      rw [← Text.slice_byteSize hpos, gap, clean.left _ outside, clean.right _ outside]
      simp [parts, Text.weave, Text.slice_byteSize hpos]
    · simp [parts, Text.weave, stretch]
  | cons s spans ih =>
    obtain ⟨hle, hs, he⟩ := fits s List.mem_cons_self
    obtain ⟨behind, rest⟩ := List.pairwise_cons.1 spaced
    have lt := ahead s List.mem_cons_self
    have clean' : m.Clean t ((done ++ [s]) ++ spans) := by simpa using clean
    have past' : ∀ r ∈ done ++ [s], r.stop ≤ s.stop := by
      intro r hr
      rcases List.mem_append.1 hr with hr | hr
      · have := past r hr
        omega
      · exact Nat.le_of_eq (by rw [List.mem_singleton.1 hr])
    have gap := clean.stretch_gap past hpos hs lt fun r hr => by
      rcases List.mem_cons.1 hr with rfl | hr
      · exact Nat.le_refl _
      · have := behind r hr
        omega
    have tail := ih clean' past' (fun r hr => fits r (List.mem_cons_of_mem _ hr)) he behind rest
      (Text.le_byteSize_of_isBoundary he)
    have whole : Text.dropBytes t pos = Text.slice t pos s.start ++
        (Text.slice t s.start s.stop ++ Text.dropBytes t s.stop) := by
      rw [← Text.slice_byteSize hpos, ← Text.slice_byteSize he,
        Text.slice_append_slice hs he (Text.isBoundary_byteSize t) hle
          (Text.le_byteSize_of_isBoundary he),
        Text.slice_append_slice hpos hs (Text.isBoundary_byteSize t) (Nat.le_of_lt lt)
          (Text.le_byteSize_of_isBoundary hs)]
    have to_start := Text.add_byteSize_slice hpos hs (Nat.le_of_lt lt)
    have to_stop := Text.add_byteSize_slice hs he hle
    rw [whole, stretch_append, to_start, stretch_append, to_stop, gap]
    simp [parts, Text.weave, renderFrom_eq, to_stop, tail]

/-- **Rendering is local.** Slots that are clean outside of spaced spans render as the base
with each span exchanged for what its own slots show. -/
theorem render_weave (clean : m.Clean t spans) (fits : ∀ s ∈ spans, s.Fits t)
    (spaced : Span.Spaced spans) : m.render t = t.weave 0 (m.parts t spans) := by
  have split := m.renderFrom_eq 0 t
  rw [Nat.zero_add, List.append_assoc] at split
  rw [render, split]
  cases spans with
  | nil =>
    have start : m.Clean t ([] ++ []) := clean
    have tail := start.stretch_weave (by simp) fits (Text.isBoundary_zero t) (by simp) spaced
    rw [Text.dropBytes_zero] at tail
    rw [tail, clean.left 0 (by simp), clean.right 0 (by simp)]
    rfl
  | cons s spans =>
    obtain ⟨hle, hs, he⟩ := fits s List.mem_cons_self
    obtain ⟨behind, rest⟩ := List.pairwise_cons.1 spaced
    by_cases first : s.start = 0
    · -- the first span starts the text, and the slots in front of it are its own
      have start : m.Clean t ([s] ++ spans) := clean
      have tail := start.stretch_weave (by simp) (fun r hr => fits r (List.mem_cons_of_mem _ hr)) he
        behind rest
      have whole : t = Text.slice t 0 s.stop ++ Text.dropBytes t s.stop := by
        rw [Text.slice_zero, Text.takeBytes_append_dropBytes]
      have to_stop : Text.byteSize (Text.slice t 0 s.stop) = s.stop := by
        rw [Text.byteSize_slice (Text.isBoundary_zero t) he (Nat.zero_le _), Nat.sub_zero]
      have stretch : m.stretch 0 t =
          m.stretch 0 (Text.slice t 0 s.stop) ++ m.stretch s.stop (Text.dropBytes t s.stop) := by
        conv => lhs; rw [whole]
        rw [stretch_append, to_stop, Nat.zero_add]
      rw [stretch, List.append_assoc, tail]
      simp [parts, Text.weave, first, renderFrom_eq, to_stop]
    · have ahead : ∀ r ∈ s :: spans, 0 < r.start := by
        intro r hr
        rcases List.mem_cons.1 hr with rfl | hr
        · omega
        · have := behind r hr
          omega
      have start : m.Clean t ([] ++ s :: spans) := clean
      have tail := start.stretch_weave (by simp) fits (Text.isBoundary_zero t) ahead spaced
      have outside : ∀ r ∈ s :: spans, 0 < r.start ∨ r.stop < 0 := fun r hr => .inl (ahead r hr)
      rw [Text.dropBytes_zero] at tail
      rw [tail, clean.left 0 outside, clean.right 0 outside]
      rfl

end Weave

end Slots

end ComponentEdit
