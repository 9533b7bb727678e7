import ComponentEdit.Buffer.Provenance
import ComponentEdit.Proofs.Buffer.Trace
import ComponentEdit.Proofs.Text.Encoding

/-!
# The base span of a range is its byte provenance

Every byte of a rendered text comes from a byte of the base or from nowhere
(`Buffer.byteTrace`). A range of the rendered text has a base span exactly if its
bytes come from consecutive bytes of the base, and then the span is theirs
(`baseSpan_provenance`). `Fragment.follow` looks at a fragment after the other: what it has
found is always the span of the bytes of the range so far (`Found`), and a fragment that
does not go on there ends the search, since no span can be that of all bytes any more.
-/

namespace ComponentEdit
set_option autoImplicit false

/-- The base offset that a character is copied from. -/
def Origin.offset? : Origin → Option Nat
  | .copied i => some i
  | .attached => none
  | .replaced .. => none

/-- The base offsets of `size` bytes of which the first comes from `origin`. -/
def offsets (origin : Option Nat) (size : Nat) : List (Option Nat) :=
  (List.range size).map fun k => origin.map (· + k)

namespace Buffer

/-- The bytes of the rendered text and where they come from. -/
def byteTrace (b : Buffer) : List (UInt8 × Option Nat) :=
  b.trace.flatMap fun (c, o) => (String.utf8EncodeChar c).zip (offsets o.offset? c.utf8Size)

/-- Where the bytes of the rendered text come from. -/
def provenance (b : Buffer) : List (Option Nat) := b.byteTrace.map (·.2)

/-- The place of a copied body in the rendered text and in the base. -/
structure Copy where
  place : Nat
  origin : Nat
  size : Nat

/-- The copied bodies of a row of chunks that is rendered from `place` on. -/
def copiesFrom : (place : Nat) → List Chunk → List Copy
  | _, [] => []
  | place, c :: cs =>
    let later := copiesFrom (place + Text.byteSize c.render) cs
    match c.body with
    | .copied t => ⟨place + Text.byteSize c.before, c.start, Text.byteSize t⟩ :: later
    | .replaced .. => later

/-- The copied bodies of the rendered text in their order. -/
def copies (b : Buffer) : List Copy := copiesFrom (Text.byteSize b.front) b.chunks

/-- Whether a place in the rendered text is in a copied body or at its end. -/
def Copy.reaches (c : Copy) (place : Nat) : Bool :=
  decide (c.place ≤ place) && decide (place ≤ c.place + c.size)

end Buffer

/-- The `n` bytes from `start` on come from the base span `s`. -/
structure Traced (origins : List (Option Nat)) (start n : Nat) (s : Span) : Prop where
  stop : s.stop = s.start + n
  each : ∀ k, k < n → origins[start + k]? = some (some (s.start + k))

namespace Traced
variable {origins more : List (Option Nat)} {start n m : Nat} {s : Span}

theorem append (h : Traced origins start n s) : Traced (origins ++ more) start n s where
  stop := h.stop
  each k hk := by
    have eq := h.each k hk
    rw [List.getElem?_append_left (List.getElem?_eq_some_iff.1 eq).1, eq]

/-- Spans of bytes that start at the same place start at the same place. -/
theorem start_eq {s' : Span} (h : Traced origins start n s) (h' : Traced origins start m s')
    (pos : 0 < n) (pos' : 0 < m) : s.start = s'.start := by
  have first := h.each 0 pos
  rw [h'.each 0 pos'] at first
  simpa using first.symm

/-- Bytes come from one span only. -/
theorem unique {s' : Span} (h : Traced origins start n s) (h' : Traced origins start n s')
    (pos : 0 < n) : s = s' := by
  have starts := h.start_eq h' pos pos
  have stop := h.stop
  have stop' := h'.stop
  cases s
  cases s'
  simp_all

/-- Bytes that follow on come from a longer span. -/
theorem extend (h : Traced origins start n s)
    (more : ∀ k, n ≤ k → k < m → origins[start + k]? = some (some (s.start + k))) :
    Traced origins start m ⟨s.start, s.start + m⟩ where
  stop := rfl
  each k hk := by
    by_cases old : k < n
    · exact h.each k old
    · exact more k (Nat.le_of_not_lt old) hk

theorem at' (h : Traced origins start n s) {i : Nat} (lo : start ≤ i) (hi : i < start + n) :
    origins[i]? = some (some (s.start + (i - start))) := by
  have eq := h.each (i - start) (by omega)
  rwa [Nat.add_sub_cancel' lo] at eq

end Traced

@[simp] theorem length_offsets (origin : Option Nat) (size : Nat) :
    (offsets origin size).length = size := by simp [offsets]

theorem getElem?_offsets {origin : Option Nat} {size k : Nat} (h : k < size) :
    (offsets origin size)[k]? = some (origin.map (· + k)) := by simp [offsets, h]

namespace Fragment

/-- Where the bytes of a fragment come from. -/
def origins (p : Fragment) : List (Option Nat) := offsets p.origin p.size

/-- What following a range has found among the bytes looked at: nothing before the range
starts, then the span of its bytes so far. -/
inductive Found (range : Span) (done : List (Option Nat)) : Option Span → Prop
  | before : done.length ≤ range.start → Found range done none
  | within {s : Span} : range.start < done.length →
      Traced done range.start (min range.stop done.length - range.start) s → Found range done (some s)

section Follow
variable {range : Span} {done rest : List (Option Nat)} {found : Option Span} {p : Fragment}

@[simp] theorem length_origins (p : Fragment) : p.origins.length = p.size := by simp [origins]

/-- The bytes of a fragment among those of all. -/
theorem getElem?_middle (done rest : List (Option Nat)) {i : Nat} (lo : done.length ≤ i)
    (hi : i < done.length + p.size) :
    (done ++ p.origins ++ rest)[i]? = some (p.origin.map (· + (i - done.length))) := by
  have inside : i - done.length < p.size := by omega
  rw [List.append_assoc, List.getElem?_append_right lo,
    List.getElem?_append_left (by rw [length_origins]; exact inside), origins,
    getElem?_offsets inside]

/-- Fragments before and behind the range are passed over. -/
theorem Found.skip (h : Found range done found)
    (out : min range.stop (done.length + p.size) ≤ max range.start done.length)
    (forward : range.start < range.stop) : Found range (done ++ p.origins) found := by
  have size : (done ++ p.origins).length = done.length + p.size := by simp
  cases h with
  | before le => exact .before (by omega)
  | within lt traced =>
    refine .within (by omega) ?_
    have same : min range.stop (done ++ p.origins).length = min range.stop done.length := by omega
    rw [same]
    exact traced.append

/-- The first copied fragment of the range starts its span. -/
theorem Found.first {o : Nat} (copied : p.origin = some o) (before : done.length ≤ range.start)
    (inside : max range.start done.length < min range.stop (done.length + p.size)) :
    Found range (done ++ p.origins) (some ⟨o + (max range.start done.length - done.length),
      o + (min range.stop (done.length + p.size) - done.length)⟩) := by
  have size : (done ++ p.origins).length = done.length + p.size := by simp
  refine .within (by omega) ⟨?_, fun k hk => ?_⟩
  · simp only [size]
    omega
  · rw [size] at hk
    have shown := getElem?_middle (p := p) done [] (i := range.start + k) (by omega) (by omega)
    rw [List.append_nil, copied] at shown
    rw [shown, Option.map_some]
    congr 2
    simp only
    omega

/-- A copied fragment that goes on where the span stops makes it longer. -/
theorem Found.next {o : Nat} {f : Span} (copied : p.origin = some o)
    (h : Found range done (some f))
    (inside : max range.start done.length < min range.stop (done.length + p.size))
    (joins : f.stop = o + (max range.start done.length - done.length)) :
    Found range (done ++ p.origins)
      (some ⟨f.start, o + (min range.stop (done.length + p.size) - done.length)⟩) := by
  have size : (done ++ p.origins).length = done.length + p.size := by simp
  cases h with
  | within lt traced =>
    have stop := traced.stop
    refine .within (by omega) ?_
    have both : Traced (done ++ p.origins) range.start (min range.stop done.length - range.start) f :=
      traced.append
    have longer := both.extend
      (m := min range.stop (done ++ p.origins).length - range.start) fun k hk hk' => by
        rw [size] at hk'
        have shown := getElem?_middle (p := p) done [] (i := range.start + k) (by omega) (by omega)
        rw [List.append_nil, copied] at shown
        rw [shown, Option.map_some]
        congr 2
        omega
    have ends : f.start + (min range.stop (done ++ p.origins).length - range.start) =
        o + (min range.stop (done.length + p.size) - done.length) := by omega
    rwa [ends] at longer

/-- The first byte that a fragment has in the range is a byte of the span of the range. -/
theorem origin_of_traced {s : Span}
    (inside : max range.start done.length < min range.stop (done.length + p.size))
    (traced : Traced (done ++ p.origins ++ rest) range.start
      (min range.stop (done ++ p.origins ++ rest).length - range.start) s) :
    p.origin.map (· + (max range.start done.length - done.length)) =
      some (s.start + (max range.start done.length - range.start)) := by
  have shown := getElem?_middle (p := p) done rest (i := max range.start done.length)
    (by omega) (by omega)
  have place := traced.at' (i := max range.start done.length) (by omega)
    (by simp only [List.length_append, length_origins]; omega)
  rw [shown] at place
  exact Option.some.inj place

/-- Following a range through all fragments finds the span of its bytes, if there is one. -/
theorem follow_eq_some_iff (forward : range.start < range.stop) {ps : List Fragment}
    (h : Found range done found) {s : Span} :
    follow range done.length found ps = some s ↔
      range.start < (done ++ ps.flatMap origins).length ∧
        Traced (done ++ ps.flatMap origins) range.start
          (min range.stop (done ++ ps.flatMap origins).length - range.start) s := by
  induction ps generalizing done found with
  | nil =>
    simp only [follow, List.flatMap_nil, List.append_nil]
    cases h with
    | before le => simp [Nat.not_lt.mpr le]
    | within lt traced =>
      constructor
      · rintro ⟨rfl⟩
        exact ⟨lt, traced⟩
      · rintro ⟨-, traced'⟩
        rw [traced.unique traced' (by omega)]
  | cons p ps ih =>
    have position : done.length + p.size = (done ++ p.origins).length := by simp
    have all : done ++ (p :: ps).flatMap origins = done ++ p.origins ++ ps.flatMap origins := by simp
    have later : ∀ {found}, Found range (done ++ p.origins) found →
        (follow range (done.length + p.size) found ps = some s ↔
          range.start < (done ++ p.origins ++ ps.flatMap origins).length ∧
            Traced (done ++ p.origins ++ ps.flatMap origins) range.start
              (min range.stop (done ++ p.origins ++ ps.flatMap origins).length - range.start) s) :=
      fun h => by rw [position]; exact ih h
    rw [all, follow]
    by_cases out : min range.stop (done.length + p.size) ≤ max range.start done.length
    · rw [if_pos out]
      exact later (h.skip out forward)
    · have inside := Nat.lt_of_not_le out
      rw [if_neg out]
      cases copied : p.origin with
      | none =>
        simp only [reduceCtorEq, false_iff, not_and]
        intro _ traced
        simpa [copied] using origin_of_traced inside traced
      | some o =>
        cases found with
        | none =>
          cases h with
          | before le => exact later (.first copied le inside)
        | some f =>
          by_cases joins : f.stop = o + (max range.start done.length - done.length)
          · simp only [joins, if_true]
            exact later (h.next copied inside joins)
          · simp only [joins, if_false, reduceCtorEq, false_iff, not_and]
            intro _ traced
            refine joins ?_
            cases h with
            | within lt first =>
              have here := origin_of_traced inside traced
              rw [copied, Option.map_some, Option.some.injEq] at here
              have starts := traced.start_eq (first.append.append) (by omega) (by omega)
              have stop := first.stop
              omega

end Follow

end Fragment

theorem offsets_add (origin : Option Nat) (m n : Nat) :
    offsets origin (m + n) = offsets origin m ++ offsets (origin.map (· + m)) n := by
  rw [offsets, List.range_add, List.map_append, List.map_map, offsets, offsets]
  refine congrArg _ (List.map_congr_left fun k _ => ?_)
  cases origin <;> simp [Nat.add_assoc]

namespace Trace

/-- Where the bytes of the characters of a trace come from. -/
def byteOrigins (tr : Trace) : List (Option Nat) :=
  tr.flatMap fun (c, o) => offsets o.offset? c.utf8Size

@[simp] theorem byteOrigins_cons (c : Char) (o : Origin) (tr : Trace) :
    byteOrigins ((c, o) :: tr) = offsets o.offset? c.utf8Size ++ byteOrigins tr := rfl

@[simp] theorem byteOrigins_append (x y : Trace) :
    (x ++ y).byteOrigins = x.byteOrigins ++ y.byteOrigins := by simp [byteOrigins]

/-- Text that is not copied comes from nowhere. -/
theorem byteOrigins_of_foreign {tr : Trace} (h : ∀ p ∈ tr, p.2.offset? = none) :
    tr.byteOrigins = offsets none (Text.byteSize tr.text) := by
  induction tr with
  | nil => rfl
  | cons p tr ih =>
    have rest := ih fun q hq => h q (List.mem_cons_of_mem _ hq)
    have foreign := h p List.mem_cons_self
    obtain ⟨c, o⟩ := p
    simp [rest, foreign, offsets_add]

theorem byteOrigins_copied (i : Nat) (t : Text) :
    (copied i t).byteOrigins = offsets (some i) (Text.byteSize t) := by
  induction t generalizing i with
  | nil => rfl
  | cons c t ih =>
    simp [copied, ih, offsets_add, Origin.offset?]

@[simp] theorem length_byteOrigins (tr : Trace) :
    tr.byteOrigins.length = Text.byteSize tr.text := by
  induction tr with
  | nil => rfl
  | cons p tr ih =>
    obtain ⟨c, o⟩ := p
    simp [ih]

/-- Characters whose bytes come from consecutive bytes are copied from there. -/
theorem eq_copied {tr : Trace} {i : Nat}
    (h : tr.byteOrigins = offsets (some i) (Text.byteSize tr.text)) : tr = copied i tr.text := by
  induction tr generalizing i with
  | nil => rfl
  | cons p tr ih =>
    obtain ⟨c, o⟩ := p
    rw [byteOrigins_cons, text_cons, Text.byteSize_cons, offsets_add] at h
    obtain ⟨here, rest⟩ := List.append_inj h (by simp)
    have first := congrArg (·[0]?) here
    simp only [getElem?_offsets c.utf8Size_pos] at first
    cases o with
    | attached => simp [Origin.offset?] at first
    | replaced start name opens => simp [Origin.offset?] at first
    | copied j =>
      obtain rfl : j = i := by simpa [Origin.offset?] using first
      rw [text_cons, copied, ← ih (by simpa using rest)]

end Trace

/-- The bytes of a chunk come from where its fragments come from. -/
theorem Chunk.byteOrigins_trace (base : Text) (c : Chunk) :
    (c.trace base).byteOrigins = (Fragment.ofChunk c).flatMap Fragment.origins := by
  have attached : ∀ t : Text, (Trace.attached t).byteOrigins = offsets none (Text.byteSize t) := by
    intro t
    rw [Trace.byteOrigins_of_foreign fun p hp => by rw [Trace.mem_attached hp]; rfl,
      Trace.text_attached]
  cases hb : c.body with
  | copied t =>
    simp [trace, hb, attached, Trace.byteOrigins_copied, Fragment.ofChunk, Fragment.origins,
      Fragment.inserted, Body.text]
  | replaced t named =>
    have foreign : ∀ name, (Trace.replaced c.start name true t).byteOrigins =
        offsets none (Text.byteSize t) := by
      intro name
      rw [Trace.byteOrigins_of_foreign fun p hp => ?_, Trace.text_replaced]
      obtain ⟨opens, eq⟩ := Trace.mem_replaced hp
      rw [eq]
      rfl
    simp [trace, hb, attached, foreign, Fragment.ofChunk, Fragment.origins, Fragment.inserted,
      Body.text]

namespace Buffer
variable {b : Buffer}

/-- The bytes of the trace are the rendered text. -/
theorem byteTrace_fst (b : Buffer) : b.byteTrace.map (·.1) = Text.bytes b.render := by
  rw [byteTrace, List.map_flatMap, ← text_trace, Text.bytes, Trace.text, List.flatMap_map]
  congr 1
  funext p
  obtain ⟨c, o⟩ := p
  exact List.map_fst_zip (by simp)

theorem provenance_eq_byteOrigins (b : Buffer) : b.provenance = b.trace.byteOrigins := by
  rw [provenance, byteTrace, List.map_flatMap, Trace.byteOrigins]
  congr 1
  funext p
  obtain ⟨c, o⟩ := p
  exact List.map_snd_zip (by simp)

/-- The bytes of the rendered text come from where its fragments come from. -/
theorem provenance_eq_origins (b : Buffer) :
    b.provenance = b.fragments.flatMap Fragment.origins := by
  have attached : ∀ t : Text, (Trace.attached t).byteOrigins = offsets none (Text.byteSize t) := by
    intro t
    rw [Trace.byteOrigins_of_foreign fun p hp => by rw [Trace.mem_attached hp]; rfl,
      Trace.text_attached]
  have chunks : ∀ cs : List Chunk, Trace.byteOrigins (cs.flatMap (Chunk.trace b.base)) =
      (cs.flatMap Fragment.ofChunk).flatMap Fragment.origins := by
    intro cs
    induction cs with
    | nil => rfl
    | cons c cs ih => simp [ih, Chunk.byteOrigins_trace]
  rw [provenance_eq_byteOrigins, trace, fragments]
  simp [chunks, attached, Fragment.origins, Fragment.inserted]

@[simp] theorem length_provenance (b : Buffer) : b.provenance.length = b.length := by
  rw [length, ← Text.length_bytes, ← byteTrace_fst, provenance, List.length_map, List.length_map]

/-- A range with bytes has the base span that its bytes come from, if there is one. -/
theorem baseSpan?_eq_some_iff {start stop : Nat} (lt : start < stop) {s : Span} :
    b.baseSpan? ⟨start, stop⟩ = some s ↔
      stop ≤ b.length ∧ Traced b.provenance start (stop - start) s := by
  have full : Span.isEmpty ⟨start, stop⟩ = false := by simp [Span.isEmpty, lt]
  have found : Fragment.Found ⟨start, stop⟩ [] none := .before (Nat.zero_le _)
  have follow : Fragment.follow ⟨start, stop⟩ 0 none b.fragments = some s ↔
      start < b.length ∧ Traced b.provenance start (min stop b.length - start) s := by
    rw [← length_provenance, provenance_eq_origins]
    exact Fragment.follow_eq_some_iff lt found
  simp only [baseSpan?, full, Bool.false_eq_true, if_false, Option.filter_eq_some_iff,
    beq_iff_eq, Span.length]
  rw [follow]
  constructor
  · rintro ⟨⟨inside, traced⟩, size⟩
    have same := traced.stop
    have whole : min stop b.length - start = stop - start := by omega
    exact ⟨by omega, whole ▸ traced⟩
  · rintro ⟨le, traced⟩
    have same := traced.stop
    have whole : min stop b.length - start = stop - start := by omega
    exact ⟨⟨by omega, whole ▸ traced⟩, by omega⟩

/-- A byte that comes from the base is the byte there. -/
theorem Tiled.getElem?_bytes (h : b.Tiled) {byte : UInt8} {o : Nat}
    (mem : (byte, some o) ∈ b.byteTrace) : (Text.bytes b.base)[o]? = some byte := by
  obtain ⟨⟨c, origin⟩, shown, mem⟩ := List.mem_flatMap.1 mem
  obtain ⟨k, hk, eq⟩ := List.getElem_of_mem mem
  have inside : k < c.utf8Size := by simpa using hk
  have parts : (String.utf8EncodeChar c)[k]? = some byte ∧
      (offsets origin.offset? c.utf8Size)[k]? = some (some o) := by
    rw [List.getElem_zip, Prod.mk.injEq] at eq
    exact ⟨List.getElem?_eq_some_iff.2 ⟨_, eq.1⟩, List.getElem?_eq_some_iff.2 ⟨_, eq.2⟩⟩
  rw [getElem?_offsets inside] at parts
  cases origin with
  | attached => simp [Origin.offset?] at parts
  | replaced start name opens => simp [Origin.offset?] at parts
  | copied i =>
    have place : i + k = o := by simpa [Origin.offset?] using parts.2
    obtain ⟨x, y, split⟩ := List.append_of_mem shown
    obtain ⟨boundary, char⟩ := h.copied_of_trace_eq split
    rw [← place, Text.getElem?_bytes_of_charAt boundary char inside, parts.1]

/-- The bytes of a range with a base span are the bytes of that span. -/
theorem Tiled.extract_bytes (h : b.Tiled) {start n : Nat} {s : Span}
    (traced : Traced b.provenance start n s) :
    (Text.bytes b.base).extract s.start s.stop =
      (Text.bytes b.render).extract start (start + n) := by
  apply List.ext_getElem?
  intro k
  simp only [List.extract_eq_take_drop, List.getElem?_take, List.getElem?_drop, traced.stop,
    Nat.add_sub_cancel_left]
  by_cases hk : k < n
  · have origin := traced.each k hk
    rw [provenance, List.getElem?_map, Option.map_eq_some_iff] at origin
    obtain ⟨⟨byte, o⟩, shown, rfl⟩ := origin
    have rendered : (Text.bytes b.render)[start + k]? = some byte := by
      rw [← byteTrace_fst, List.getElem?_map, shown]
      rfl
    rw [if_pos hk, if_pos hk, rendered, h.getElem?_bytes (List.mem_of_getElem? shown)]
  · rw [if_neg hk, if_neg hk]

/-- A range between characters that has a base span is copied from there. -/
theorem exists_run {start stop : Nat} (le : start ≤ stop)
    (hs : Text.isBoundary b.render start = true) (he : Text.isBoundary b.render stop = true) {s : Span}
    (traced : Traced b.provenance start (stop - start) s) :
    ∃ x y, b.trace = x ++ (Trace.copied s.start (Text.slice b.render start stop) ++ y) ∧
      x.text = b.render.takeBytes start := by
  obtain ⟨p, t, q, split, lo, hi⟩ := Text.exists_parts hs he le
  have parts : b.trace.text = p ++ (t ++ q) := by rw [text_trace, split]
  obtain ⟨x, rest, whole, textX, textRest⟩ := Trace.exists_append_of_text parts
  obtain ⟨run, y, rfl, textRun, -⟩ := Trace.exists_append_of_text textRest
  have front : b.render.takeBytes start = p := by rw [split, lo, Text.takeBytes_byteSize_append]
  have part : Text.slice b.render start stop = t := by rw [split, lo, hi, Text.slice_parts]
  have bytes : run.byteOrigins = offsets (some s.start) (Text.byteSize run.text) := by
    apply List.ext_getElem?
    intro k
    by_cases hk : k < Text.byteSize run.text
    · have shown := traced.each k (by rw [textRun] at hk; omega)
      rw [provenance_eq_byteOrigins, whole, Trace.byteOrigins_append, Trace.byteOrigins_append, lo,
        List.getElem?_append_right (by simp [textX])] at shown
      rw [List.getElem?_append_left (by simp [textX, hk])] at shown
      rw [getElem?_offsets hk, Option.map_some]
      simpa [textX] using shown
    · rw [List.getElem?_eq_none (by simpa using hk), List.getElem?_eq_none (by simpa using hk)]
  refine ⟨x, y, ?_, by rw [textX, front]⟩
  rw [whole, Trace.eq_copied bytes, textRun, part]

/-- Among the fragments of chunks the copied ones are looked through for the place. -/
theorem locate_chunks (cs : List Chunk) (place position : Nat) (t : Text) :
    Fragment.locate place position (cs.flatMap Fragment.ofChunk ++ [.inserted t]) =
      ((copiesFrom position cs).find? (·.reaches place)).map fun c =>
        c.origin + (place - c.place) := by
  induction cs generalizing position with
  | nil => rfl
  | cons c cs ih =>
    have next : position + Text.byteSize c.render = position + Text.byteSize c.before +
        Text.byteSize c.body.text + Text.byteSize c.after := by
      simp [Chunk.render, Nat.add_assoc]
    have later := ih (position + Text.byteSize c.before + Text.byteSize c.body.text +
      Text.byteSize c.after)
    rw [copiesFrom, next]
    cases hb : c.body with
    | copied u =>
      rw [hb] at later
      cases at' : (Copy.mk (position + Text.byteSize c.before) c.start
          (Text.byteSize u)).reaches place
      all_goals
        have here := at'
        rw [Copy.reaches] at here
      · simpa [Fragment.ofChunk, Fragment.locate, Fragment.inserted, hb, Body.text, at', here]
          using later
      · simp [Fragment.ofChunk, Fragment.locate, Fragment.inserted, hb, Body.text, at', here]
    | replaced u named =>
      simpa [Fragment.ofChunk, Fragment.locate, Fragment.inserted, hb, Body.text] using later

/-- A range without bytes is at the base offset that its place has in the first copied body that
contains it or ends there. -/
theorem baseSpan?_of_empty {start stop : Nat} (le : stop ≤ start) :
    b.baseSpan? ⟨start, stop⟩ = (b.copies.find? (·.reaches start)).map fun c =>
      ⟨c.origin + (start - c.place), c.origin + (start - c.place)⟩ := by
  have empty : Span.isEmpty ⟨start, stop⟩ = true := by simp [Span.isEmpty, le]
  have located := locate_chunks b.chunks start (Text.byteSize b.front) b.back
  simp only [Fragment.inserted] at located
  simp only [baseSpan?, if_pos empty, fragments, List.cons_append, Fragment.locate,
    Fragment.inserted, Nat.zero_add, located, copies, Option.map_map]
  rfl

end Buffer

/-- A range with bytes has a base span exactly if it lies in the rendered text and its bytes
come from consecutive bytes of the base, which are the same bytes; a range without bytes has
one exactly if some copied body contains its place or ends there, and the first such body says
where. -/
theorem baseSpan_provenance (t : Text) (filename : Option String) (edits : List Edit) :
    let b : Buffer := { (Buffer.ofText t).run edits with filename }
    b.byteTrace.map (·.1) = Text.bytes b.render ∧
      (∀ byte o, (byte, some o) ∈ b.byteTrace → (Text.bytes t)[o]? = some byte) ∧
      (∀ start stop s, start < stop → (b.baseSpan? ⟨start, stop⟩ = some s ↔
        stop ≤ b.length ∧ s.stop = s.start + (stop - start) ∧
          ∀ k, k < stop - start → b.provenance[start + k]? = some (some (s.start + k)))) ∧
      (∀ start stop s, start < stop → b.baseSpan? ⟨start, stop⟩ = some s →
        (Text.bytes t).extract s.start s.stop = (Text.bytes b.render).extract start stop) ∧
      ∀ start stop, stop ≤ start → b.baseSpan? ⟨start, stop⟩ =
        (b.copies.find? (·.reaches start)).map fun c =>
          ⟨c.origin + (start - c.place), c.origin + (start - c.place)⟩ := by
  intro b
  have tiled : b.Tiled := by
    have run := (Buffer.tiled_ofText t).run edits
    exact ⟨run.tiles, run.single⟩
  have base : b.base = t := Buffer.run_base _ edits
  refine ⟨b.byteTrace_fst, ?_, ?_, ?_, fun start stop => Buffer.baseSpan?_of_empty⟩
  · intro byte o mem
    rw [← base]
    exact tiled.getElem?_bytes mem
  · intro start stop s lt
    rw [Buffer.baseSpan?_eq_some_iff lt]
    exact and_congr_right fun _ => ⟨fun h => ⟨h.stop, h.each⟩, fun h => ⟨h.1, h.2⟩⟩
  · intro start stop s lt found
    have traced := ((Buffer.baseSpan?_eq_some_iff lt).1 found).2
    rw [← base, tiled.extract_bytes traced, Nat.add_sub_cancel' (Nat.le_of_lt lt)]

end ComponentEdit
