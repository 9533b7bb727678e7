import ComponentEdit.Proofs.Text.Carets
import ComponentEdit.Proofs.Text.Search
import Mathlib.Data.List.TakeWhile

/-!
# Positions and locations of a text

`Position.StandsIn` says of a position, by the line starts alone, that it belongs to its offset; the
position reached by reading up to a boundary is the only one that does (`standsIn_after`,
`StandsIn.unique`). Reading on from a position needs no more of the text before it than the position
itself (`Position.after_append`). Offsets that are refused and those that have a location are told
apart by `ofOffsets_eq_error_iff` and `ofOffsets_eq_ok_iff`.
-/

namespace ComponentEdit
set_option autoImplicit false

namespace Text
variable {p q s t : Text}

theorem lineBreaks_append (s t : Text) : lineBreaks (s ++ t) = lineBreaks s + lineBreaks t :=
  List.count_append

theorem lineBreaks_eq_zero_iff : lineBreaks t = 0 ↔ '\n' ∉ t := List.count_eq_zero

/-- What stands behind the last line break of a text, and all of it when there is none. -/
def lastLine (t : Text) : Text := (t.reverse.takeWhile (· != '\n')).reverse

theorem lastLine_line (single : '\n' ∉ s) (shape : q = [] ∨ ∃ q', q = q' ++ ['\n']) :
    lastLine (q ++ s) = s := by
  have all := forall_bne (mt List.mem_reverse.1 single)
  rcases shape with rfl | ⟨q', rfl⟩
  · have whole : s.reverse.takeWhile (· != '\n') = s.reverse := List.takeWhile_eq_self_iff.2 all
    simp [lastLine, whole]
  · simp [lastLine, List.takeWhile_append_of_pos all]

/-- The column at the end of a text is that of its last line, where the break in front counts. -/
theorem lastColumn_line (single : '\n' ∉ s) (shape : q = [] ∨ ∃ q', q = q' ++ ['\n']) :
    lastColumn (q ++ s) = s.length + if lineBreaks q = 0 then 0 else 1 := by
  have last : ((q ++ s).reverse.takeWhile (· != '\n')).length = s.length := by
    rw [← List.length_reverse, ← lastLine, lastLine_line single shape]
  simp only [lastColumn, last]
  rcases shape with rfl | ⟨q', rfl⟩ <;> simp [single, lineBreaks]

/-- Text without a line break lengthens the last line, all other text ends in a line of its own. -/
theorem lastColumn_append (p s : Text) : lastColumn (p ++ s) =
    if '\n' ∈ s then lastColumn s else lastColumn p + s.length := by
  obtain ⟨q, r, rfl, single, shape⟩ := exists_last_line s
  rcases shape with rfl | ⟨q', rfl⟩
  · obtain ⟨f, l, rfl, single', shape'⟩ := exists_last_line p
    have joined : '\n' ∉ l ++ r := by simp [single, single']
    rw [List.nil_append, if_neg single, List.append_assoc, lastColumn_line joined shape',
      lastColumn_line single' shape', List.length_append]
    omega
  · have broken : ∀ f : Text, lineBreaks (f ++ (q' ++ ['\n'])) ≠ 0 := fun f => by
      simp [lineBreaks_eq_zero_iff]
    have here := lastColumn_line single (.inr ⟨p ++ q', (List.append_assoc ..).symm⟩)
    have alone := lastColumn_line single (.inr ⟨q', rfl⟩)
    rw [if_pos (by simp), alone, ← List.append_assoc, here, if_neg (broken p),
      if_neg (by simpa using broken [])]

end Text

namespace Position

/-- The place reached from a place by reading on. -/
def past (p : Position) (read : Text) : Position :=
  ⟨p.offset + Text.byteSize read, p.line + Text.lineBreaks read,
    if '\n' ∈ read then Text.lastColumn read else p.column + read.length⟩

/-- A position belongs to its offset: its line is the one that is found among the line starts, and
its column counts the characters since that line starts, below the first line with one more. -/
structure StandsIn (p : Position) (t : Text) : Prop where
  line : p.line = ((LineIndex.ofText t).locate p.offset).line
  column : ∃ start read, (LineIndex.ofText t).starts[p.line]? = some start ∧
    Text.slice? t start p.offset = some read ∧ '\n' ∉ read ∧
    p.column = read.length + if p.line = 0 then 0 else 1

variable {p q : Position} {t : Text} {i : Nat}

theorem after_append (s t : Text) : after (s ++ t) = (after s).past t := by
  simp [after, past, Text.lineBreaks_append, Text.lastColumn_append]

/-- An offset has one position. -/
theorem StandsIn.unique (hp : p.StandsIn t) (hq : q.StandsIn t) (same : p.offset = q.offset) :
    p = q := by
  have line : p.line = q.line := by rw [hp.line, hq.line, same]
  obtain ⟨start, read, starts, reads, -, column⟩ := hp.column
  obtain ⟨start', read', starts', reads', -, column'⟩ := hq.column
  obtain rfl : start = start' := by simpa [line, starts'] using starts.symm
  obtain rfl : read = read' := by simpa [same, reads'] using reads.symm
  obtain ⟨offset, n, k⟩ := p
  obtain ⟨offset', n', k'⟩ := q
  simp only at same line column column'
  rw [same, line, column, column', line]

/-- Reading up to an offset reaches its position. -/
theorem standsIn_after (hi : Text.isBoundary t i = true) :
    (after (t.takeBytes i)).StandsIn t ∧ (after (t.takeBytes i)).offset = i := by
  obtain ⟨p, r, rfl, rfl⟩ := Text.isBoundary_iff.1 hi
  -- The offset is on the line that `f`, the lines before it, leaves behind; `l` is read of it.
  obtain ⟨f, l, rfl, single, shape⟩ := Text.exists_last_line p
  have breaks : Text.lineBreaks (f ++ l) = Text.lineBreaks f := by
    rw [Text.lineBreaks_append, Text.lineBreaks_eq_zero_iff.2 single, Nat.add_zero]
  rw [Text.takeBytes_byteSize_append]
  refine ⟨⟨?_, Text.byteSize f, l, ?_, ?_, single, ?_⟩, rfl⟩
  · rw [after, LineIndex.locate_eq_caret hi, Text.caret_byteSize_append, Caret.line_after,
      Caret.origin, Nat.zero_add]
  · have starts := Text.last_start shape
    rw [Text.length_breaksAfter] at starts
    rw [after, breaks, LineIndex.ofText, List.append_assoc, Text.breaksAfter_append,
      ← List.cons_append, List.getElem?_append_left ?_, starts]
    rw [List.length_cons, Text.length_breaksAfter]
    exact Nat.lt_succ_self _
  · rw [after, Text.byteSize_append, List.append_assoc, Text.slice?_parts]
  · rw [after, breaks]
    exact Text.lastColumn_line single shape

end Position

namespace Location
variable {t : Text} {start stop : Nat} {l : Location}

/-- Offsets in order that are boundaries have a location. -/
theorem ofOffsets_of_boundaries (le : start ≤ stop) (hs : Text.isBoundary t start = true)
    (he : Text.isBoundary t stop = true) : ofOffsets t start stop = .ok (between t start stop) := by
  have inside := Text.le_byteSize_of_isBoundary he
  simp [ofOffsets, hs, he, Nat.not_lt.2 le, Nat.not_lt.2 inside]

/-- Why offsets are refused: the order and the end of the text come first, then the start. -/
theorem ofOffsets_eq_error_iff {e : Error} : ofOffsets t start stop = .error e ↔
    ¬(start ≤ stop ∧ stop ≤ Text.byteSize t) ∧ e = .invalidOffsets start stop (Text.byteSize t) ∨
    (start ≤ stop ∧ stop ≤ Text.byteSize t) ∧
      (Text.isBoundary t start = false ∧ e = .notCharBoundary start ∨
        Text.isBoundary t start = true ∧ Text.isBoundary t stop = false ∧
          e = .notCharBoundary stop) := by
  refine Iff.trans eq_comm ?_
  unfold ofOffsets
  by_cases ordered : start ≤ stop ∧ stop ≤ Text.byteSize t
  · rw [if_neg (by simpa using ordered)]
    cases hs : Text.isBoundary t start with
    | false => simp [ordered]
    | true => cases he : Text.isBoundary t stop <;> simp [ordered]
  · have outside : (start > stop || stop > Text.byteSize t) = true := by simp; omega
    rw [if_pos outside]
    simp [ordered]

theorem exists_ofOffsets_iff : (∃ l, ofOffsets t start stop = .ok l) ↔
    start ≤ stop ∧ stop ≤ Text.byteSize t ∧ Text.isBoundary t start = true ∧
      Text.isBoundary t stop = true := by
  constructor
  · rintro ⟨l, found⟩
    unfold ofOffsets at found
    split at found
    case isTrue => cases found
    case isFalse ordered =>
      split at found
      case isTrue => cases found
      case isFalse hs =>
        split at found
        case isTrue => cases found
        case isFalse he =>
          rw [Bool.or_eq_true, decide_eq_true_eq, decide_eq_true_eq] at ordered
          exact ⟨by omega, by omega, by simpa using hs, by simpa using he⟩
  · rintro ⟨le, -, hs, he⟩
    exact ⟨_, ofOffsets_of_boundaries le hs he⟩

/-- The location of two offsets: their positions and what is read between them. -/
theorem ofOffsets_eq_ok_iff : ofOffsets t start stop = .ok l ↔
    l.span = ⟨start, stop⟩ ∧ l.start.StandsIn t ∧ l.stop.StandsIn t ∧
      Text.slice? t start stop = some l.source := by
  constructor
  · intro found
    obtain ⟨le, -, hs, he⟩ := exists_ofOffsets_iff.1 ⟨l, found⟩
    obtain rfl : between t start stop = l := by
      simpa [ofOffsets_of_boundaries le hs he] using found
    exact ⟨span_between hs he, (Position.standsIn_after hs).1, (Position.standsIn_after he).1,
      Text.slice?_eq_some_iff.2 ⟨le, hs, he, rfl⟩⟩
  · rintro ⟨span, starts, stops, reads⟩
    obtain ⟨le, hs, he, source⟩ := Text.slice?_eq_some_iff.1 reads
    obtain ⟨starts', here⟩ := Position.standsIn_after hs
    obtain ⟨stops', there⟩ := Position.standsIn_after he
    obtain ⟨offset, offset'⟩ := Span.mk.inj span
    rw [ofOffsets_of_boundaries le hs he, between, starts'.unique starts (here.trans offset.symm),
      stops'.unique stops (there.trans offset'.symm), ← source]

/-- Where a part stops is told by where it starts and what it holds. -/
theorem stop_eq_past (found : ofOffsets t start stop = .ok l) : l.stop = l.start.past l.source := by
  obtain ⟨le, -, hs, he⟩ := exists_ofOffsets_iff.1 ⟨l, found⟩
  obtain rfl : between t start stop = l := by
    simpa [ofOffsets_of_boundaries le hs he] using found
  obtain ⟨p, m, r, rfl, rfl, rfl⟩ := Text.exists_parts hs he le
  have front : Text.takeBytes (p ++ (m ++ r)) (Text.byteSize p + Text.byteSize m) = p ++ m := by
    rw [Text.takeBytes_append_add, Text.takeBytes_byteSize_append]
  simp only [between, front, Text.takeBytes_byteSize_append, Text.slice_parts]
  exact Position.after_append p m

theorem ofOffsets_whole (t : Text) : ofOffsets t 0 (Text.byteSize t) = .ok (ofWhole t) := by
  rw [ofOffsets_of_boundaries (Nat.zero_le _) (Text.isBoundary_zero t) (Text.isBoundary_byteSize t)]
  simp [between, ofWhole, Position.after, Text.lineBreaks, Text.lastColumn]

end Location

/-- **The three ways of counting agree.** Two offsets have a location exactly if they are boundaries
of the text in order, and else the first of the three reasons is reported. The location is then the
only one with these offsets whose ends stand in the text and whose text is what lies between them;
its end follows from its start and its text alone. The location of the whole text is that of its two
ends. -/
theorem location_of_offsets_exact (t : Text) (start stop : Nat) :
    (∀ e, Location.ofOffsets t start stop = .error e ↔
      ¬(start ≤ stop ∧ stop ≤ Text.byteSize t) ∧ e = .invalidOffsets start stop (Text.byteSize t) ∨
      (start ≤ stop ∧ stop ≤ Text.byteSize t) ∧
        (Text.isBoundary t start = false ∧ e = .notCharBoundary start ∨
          Text.isBoundary t start = true ∧ Text.isBoundary t stop = false ∧
            e = .notCharBoundary stop)) ∧
    ((∃ l, Location.ofOffsets t start stop = .ok l) ↔
      start ≤ stop ∧ stop ≤ Text.byteSize t ∧ Text.isBoundary t start = true ∧
        Text.isBoundary t stop = true) ∧
    (∀ l, Location.ofOffsets t start stop = .ok l ↔
      l.span = ⟨start, stop⟩ ∧ l.start.StandsIn t ∧ l.stop.StandsIn t ∧
        Text.slice? t start stop = some l.source) ∧
    (∀ l, Location.ofOffsets t start stop = .ok l → l.stop = l.start.past l.source) ∧
    Location.ofOffsets t 0 (Text.byteSize t) = .ok (Location.ofWhole t) :=
  ⟨fun _ => Location.ofOffsets_eq_error_iff, Location.exists_ofOffsets_iff,
    fun _ => Location.ofOffsets_eq_ok_iff, fun _ => Location.stop_eq_past, Location.ofOffsets_whole t⟩

/-- Both line breaks of the text stand behind characters of several bytes. -/
theorem location_across_lines :
    let t := "aé\nb😀\n".toList
    let l : Location := ⟨⟨1, 0, 1⟩, ⟨9, 1, 3⟩, "é\nb😀".toList⟩
    Location.ofOffsets t 1 9 = .ok l ∧ l.start.StandsIn t ∧ l.stop.StandsIn t ∧
      l.stop = l.start.past l.source ∧ Location.ofOffsets t 2 9 = .error (.notCharBoundary 2) ∧
      Location.ofOffsets t 9 2 = .error (.invalidOffsets 9 2 10) := by
  intro t l
  obtain ⟨-, -, exact, past, -⟩ := location_of_offsets_exact t 1 9
  have found : Location.ofOffsets t 1 9 = .ok l := by rfl
  obtain ⟨-, starts, stops, -⟩ := (exact l).1 found
  have inside := (location_of_offsets_exact t 2 9).1 (.notCharBoundary 2)
  have order := (location_of_offsets_exact t 9 2).1 (.invalidOffsets 9 2 10)
  exact ⟨found, starts, stops, past l found,
    inside.2 (.inr ⟨by decide, .inl ⟨by decide, rfl⟩⟩), order.2 (.inl ⟨by decide, rfl⟩)⟩

end ComponentEdit
