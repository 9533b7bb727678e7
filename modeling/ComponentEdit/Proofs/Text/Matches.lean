import ComponentEdit.Proofs.Text.Encoding
import ComponentEdit.Proofs.Text.Locations

/-!
# All matches of a search

A row of places is `Greedy` if each is the first one that does not overlap the place before it, and
none is left behind the last. The scan from left to right finds such a row (`greedy_scan`): a match
is skipped as a whole (`scan_hit`), and where there is none one character is
(`scan_miss`). Bytes can only be equal where characters are (`occursAt_iff_bytes`), so the gaps
between the matches hold none of the needle's bytes either.
-/

namespace ComponentEdit
set_option autoImplicit false

namespace Text
variable {t needle front rest : Text} {c : Char} {i j start : Nat} {is before after : List Nat}

/-- The places of a needle from `start` on that do not overlap, each as far to the left as possible. -/
inductive Greedy (t needle : Text) : (start : Nat) → List Nat → Prop where
  | done {start : Nat} (none : ∀ j, start ≤ j → ¬OccursAt t needle j) : Greedy t needle start []
  | next {start i : Nat} {is : List Nat} (ahead : start ≤ i) (here : OccursAt t needle i)
      (gap : ∀ j, start ≤ j → j < i → ¬OccursAt t needle j)
      (later : Greedy t needle (i + byteSize needle) is) : Greedy t needle start (i :: is)

namespace Greedy

/-- What is found from further on, where nothing is passed over. -/
theorem extend {start' : Nat} (le : start ≤ start')
    (none : ∀ j, start ≤ j → j < start' → ¬OccursAt t needle j) (h : Greedy t needle start' is) :
    Greedy t needle start is := by
  have before : ∀ i, (∀ j, start' ≤ j → j < i → ¬OccursAt t needle j) →
      ∀ j, start ≤ j → j < i → ¬OccursAt t needle j := fun i gap j lo hi => by
    by_cases passed : j < start'
    · exact none j lo passed
    · exact gap j (Nat.not_lt.1 passed) hi
  cases h with
  | done last => exact .done fun j lo => before (j + 1) (fun k le _ => last k le) j lo j.lt_succ_self
  | next ahead here gap later => exact .next (Nat.le_trans le ahead) here (before _ gap) later

theorem ahead (h : Greedy t needle start is) : ∀ i ∈ is, start ≤ i := by
  induction h with
  | done => simp
  | next le here gap later ih =>
    refine List.forall_mem_cons.2 ⟨le, fun j hj => ?_⟩
    have further := ih j hj
    omega

theorem occursAt (h : Greedy t needle start is) : ∀ i ∈ is, OccursAt t needle i := by
  induction h with
  | done => simp
  | next le here gap later ih => exact List.forall_mem_cons.2 ⟨here, ih⟩

theorem pairwise (h : Greedy t needle start is) : is.Pairwise fun i j => i + byteSize needle ≤ j := by
  induction h with
  | done => exact .nil
  | next le here gap later ih => exact .cons later.ahead ih

/-- There is no place between two matches, nor in front of the first one or behind the last. -/
theorem gap (h : Greedy t needle start (before ++ after)) (lo : start ≤ j)
    (behind : ∀ i ∈ before, i + byteSize needle ≤ j) (inFront : ∀ i ∈ after, j < i) :
    ¬OccursAt t needle j := by
  induction before generalizing start with
  | nil =>
    cases h with
    | done none => exact none j lo
    | next ahead here gap later => exact gap j lo (inFront _ List.mem_cons_self)
  | cons i before ih =>
    rw [List.forall_mem_cons] at behind
    cases h with
    | next ahead here gap later => exact ih later behind.1 behind.2

end Greedy

section Scan

theorem scan_skip (needle : Text) (skip offset : Nat) (t : Text) : scan needle skip offset t =
    scan needle 0 (offset + byteSize (t.take skip)) (t.drop skip) := by
  induction t generalizing skip offset with
  | nil => simp [scan]
  | cons c t ih =>
    cases skip with
    | zero => simp
    | succ skip => rw [scan, ih, List.take_succ_cons, List.drop_succ_cons, byteSize_cons, Nat.add_assoc]

/-- A match is reported, and the scan goes on behind it. -/
theorem scan_hit (ne : needle ≠ []) (offset : Nat) (rest : Text) :
    scan needle 0 offset (needle ++ rest) =
      offset :: scan needle 0 (offset + byteSize needle) rest := by
  obtain ⟨c, cs, rfl⟩ := List.exists_cons_of_ne_nil ne
  have found : (c :: cs).isPrefixOf (c :: (cs ++ rest)) = true :=
    List.isPrefixOf_iff_prefix.2 (List.prefix_append (c :: cs) rest)
  rw [List.cons_append, scan, if_pos found, scan_skip]
  simp [Nat.add_assoc]

theorem scan_miss (no : ¬needle <+: c :: t) (offset : Nat) :
    scan needle 0 offset (c :: t) = scan needle 0 (offset + c.utf8Size) t := by
  rw [scan, if_neg (mt List.isPrefixOf_iff_prefix.1 no)]

/-- Behind a front part the places are those of the rest, shifted. -/
theorem occursAt_append_add (p r : Text) :
    OccursAt (p ++ r) needle (byteSize p + i) ↔ OccursAt r needle i := by
  induction p with
  | nil => simp
  | cons c p ih =>
    have pos := c.utf8Size_pos
    rw [List.cons_append, occursAt_cons, byteSize_cons, ← ih]
    constructor
    · rintro (⟨zero, -⟩ | ⟨j, same, here⟩)
      · omega
      · obtain rfl : j = byteSize p + i := by omega
        exact here
    · exact fun here => .inr ⟨_, Nat.add_assoc .., here⟩

/-- A scan of the rest of a text finds the matches from there on. -/
theorem greedy_scan (ne : needle ≠ []) (front rest : Text) : Greedy (front ++ rest) needle
    (byteSize front) (scan needle 0 (byteSize front) rest) := by
  -- A match takes the whole needle off the rest, so the induction is on its length.
  induction size : rest.length using Nat.strong_induction_on generalizing front rest with
  | _ n ih =>
    subst size
    cases rest with
    | nil =>
      refine .done fun j lo here => not_occursAt_nil (i := j - byteSize front) ne ?_
      rwa [← occursAt_append_add front, Nat.add_sub_cancel' lo]
    | cons c r =>
      by_cases here : needle <+: c :: r
      · obtain ⟨behind, split⟩ := here
        have shorter : behind.length < (c :: r).length := by
          rw [← split, List.length_append]
          have := List.length_pos_iff.2 ne
          omega
        have later := ih _ shorter (front ++ needle) behind rfl
        rw [byteSize_append, List.append_assoc, split] at later
        rw [← split, scan_hit ne, split]
        exact .next (Nat.le_refl _) ⟨front, behind, by rw [split], rfl⟩
          (fun j lo hi => absurd hi (Nat.not_lt.2 lo)) later
      · have later := ih r.length (Nat.lt_succ_self _) (front ++ [c]) r rfl
        rw [byteSize_append, byteSize_cons, byteSize_nil, Nat.add_zero, List.append_assoc] at later
        rw [scan_miss here]
        refine later.extend (Nat.le_add_right _ _) fun j lo hi there => ?_
        obtain ⟨k, rfl⟩ := Nat.exists_eq_add_of_le lo
        rw [occursAt_append_add, occursAt_cons] at there
        rcases there with ⟨-, found⟩ | ⟨k', rfl, -⟩
        · exact here found
        · omega

theorem greedy_occurrences (t : Text) (ne : needle ≠ []) :
    Greedy t needle 0 (occurrences t needle) := by
  rw [occurrences, if_neg (by simpa using ne)]
  exact greedy_scan ne [] t

end Scan

/-- A needle stands where its bytes do, which is never inside of a character. -/
theorem occursAt_iff_bytes (ne : needle ≠ []) :
    OccursAt t needle i ↔ bytes needle <+: (bytes t).drop i := by
  have behind : ∀ front rest : Text, (bytes (front ++ rest)).drop (byteSize front) = bytes rest := by
    intro front rest
    rw [bytes_append, ← length_bytes, List.drop_left]
  constructor
  · rintro ⟨front, rest, rfl, rfl⟩
    rw [behind, bytes_prefix_bytes_iff]
    exact List.prefix_append needle rest
  · intro found
    obtain ⟨c, cs, rfl⟩ := List.exists_cons_of_ne_nil ne
    obtain ⟨b, first, starts⟩ := (firstByte_utf8EncodeChar c 0).2 rfl
    -- The first byte of the needle starts a character, so it is one of those of the text as well.
    have boundary : isBoundary t i = true := by
      obtain ⟨more, split⟩ := found
      have here : ((bytes t).drop i)[0]? = some b := by
        rw [← split, bytes_cons, List.append_assoc]
        exact List.getElem?_append_left (List.getElem?_eq_some_iff.1 first).1 ▸ first
      rw [List.getElem?_drop, Nat.add_zero] at here
      exact isBoundary_iff_firstByte.2 (.inr ⟨b, here, starts⟩)
    obtain ⟨front, rest, rfl, rfl⟩ := isBoundary_iff.1 boundary
    rw [behind, bytes_prefix_bytes_iff] at found
    obtain ⟨rest, rfl⟩ := found
    exact ⟨front, rest, rfl, rfl⟩

end Text

namespace Location
variable {t needle : Text} {i : Nat} {l : Location}

/-- The location of a place of a needle. -/
theorem between_of_occursAt (here : Text.OccursAt t needle i) :
    (between t i (i + Text.byteSize needle)).span = ⟨i, i + Text.byteSize needle⟩ ∧
      Text.slice? t i (i + Text.byteSize needle) = some needle ∧
      ofOffsets t i (i + Text.byteSize needle) = .ok (between t i (i + Text.byteSize needle)) := by
  obtain ⟨start, stop, read⟩ := Text.occursAt_iff.1 here
  have le := Nat.le_add_right i (Text.byteSize needle)
  exact ⟨span_between start stop, Text.slice?_eq_some_iff.2 ⟨le, start, stop, read.symm⟩,
    ofOffsets_of_boundaries le start stop⟩

/-- The spans of the locations found are those of the matches. -/
theorem span_findAll (ne : needle ≠ []) : (findAll t needle).map span =
    (Text.occurrences t needle).map fun i => ⟨i, i + Text.byteSize needle⟩ := by
  rw [findAll, List.map_map]
  exact List.map_congr_left fun i hi =>
    (between_of_occursAt ((Text.greedy_occurrences t ne).occursAt i hi)).1

end Location

/-- **All matches are found from left to right, as early as possible.** Every location found is the
one of its offsets, and the needle is what is read there. The locations stand in the order of the
text and do not overlap. The bytes of the needle stand nowhere between one location and the next,
nor in front of the first one or behind the last. -/
theorem found_locations_greedy (t needle : Text) (filled : needle ≠ []) :
    let found := Location.findAll t needle
    (∀ l ∈ found, l.span.stop = l.span.start + Text.byteSize needle ∧
      Text.slice? t l.span.start l.span.stop = some needle ∧
      Location.ofOffsets t l.span.start l.span.stop = .ok l) ∧
    found.Pairwise (fun l l' => l.span.stop ≤ l'.span.start) ∧
    ∀ before after, found = before ++ after → ∀ i, (∀ l ∈ before, l.span.stop ≤ i) →
      (∀ l ∈ after, i < l.span.start) → ¬Text.bytes needle <+: (Text.bytes t).drop i := by
  intro found
  have greedy := Text.greedy_occurrences t filled
  have spans : found.map Location.span = _ := Location.span_findAll filled
  refine ⟨fun l hl => ?_, ?_, fun before after split i behind inFront => ?_⟩
  · obtain ⟨i, hi, rfl⟩ := List.mem_map.1 hl
    obtain ⟨span, read, located⟩ := Location.between_of_occursAt (greedy.occursAt i hi)
    rw [span]
    exact ⟨rfl, read, located⟩
  · have ordered : (found.map Location.span).Pairwise fun s s' => s.stop ≤ s'.start := by
      rw [spans]
      exact List.pairwise_map.2 greedy.pairwise
    exact List.pairwise_map.1 ordered
  · -- The locations are split in two, so the places are, and the gap is between the two rows.
    rw [split, List.map_append] at spans
    obtain ⟨is, js, places, first, last⟩ := List.append_eq_map_iff.1 spans
    rw [places] at greedy
    rw [← Text.occursAt_iff_bytes filled]
    have passed : ∀ s ∈ before.map Location.span, s.stop ≤ i := List.forall_mem_map.2 behind
    have coming : ∀ s ∈ after.map Location.span, i < s.start := List.forall_mem_map.2 inFront
    rw [← first, List.forall_mem_map] at passed
    rw [← last, List.forall_mem_map] at coming
    exact greedy.gap (Nat.zero_le i) passed coming

/-- The place in the middle overlaps the first match. -/
theorem overlapping_place_passed_over :
    let t := "éaéaé\néaé".toList
    let needle := "éaé".toList
    let found := Location.findAll t needle
    needle ≠ [] ∧ Text.OccursAt t needle 3 ∧ found.map Location.span = [⟨0, 5⟩, ⟨9, 14⟩] ∧
      (∀ l ∈ found, Location.ofOffsets t l.span.start l.span.stop = .ok l) ∧
      ∀ i, 5 ≤ i → i < 9 → ¬Text.bytes needle <+: (Text.bytes t).drop i := by
  intro t needle found
  have filled : needle ≠ [] := by decide
  have spans : found.map Location.span = [⟨0, 5⟩, ⟨9, 14⟩] := by decide +kernel
  obtain ⟨exact, -, gaps⟩ := found_locations_greedy t needle filled
  refine ⟨filled, ⟨"éa".toList, "\néaé".toList, rfl, rfl⟩, spans, fun l hl => (exact l hl).2.2,
    fun i lo hi => ?_⟩
  obtain ⟨l, l', both, here, there⟩ : ∃ l l', found = [l] ++ [l'] ∧ l.span = ⟨0, 5⟩ ∧
      l'.span = ⟨9, 14⟩ := by
    rcases found with _ | ⟨l, _ | ⟨l', _ | ⟨_, _⟩⟩⟩ <;> simp at spans ⊢
    exact spans
  exact gaps [l] [l'] both i (by simpa [here] using lo) (by simpa [there] using hi)

end ComponentEdit
