import ComponentEdit.Proofs.Buffer.Commutation
import ComponentEdit.Proofs.Buffer.Rims

/-!
# What a replacement makes of a range

A replacement cuts at the ends of its range. The first chunk from there on takes the content, the
others become blank (`Buffer.Parts.replaceChunks`). So the content stands for the base only up to
the next cut, wherever earlier edits have left one (`Buffer.Parts.stop_eq`), and of the texts
attached to the range those at the rims of that first chunk are the ones that can stay: the one to
the right of the start, and the one to the left of the next cut.
-/

namespace ComponentEdit
set_option autoImplicit false

/-- A tiling that is cut at an offset is one up to there and one from there on. -/
theorem Tiles.exists_append {base : Text} {lo hi i : Nat} {cs : List Chunk}
    (h : Tiles base lo cs hi) (parted : ∀ c ∈ cs, c.crosses i = false) (le : lo ≤ i)
    (le' : i ≤ hi) : ∃ front back, cs = front ++ back ∧ Tiles base lo front i ∧
      Tiles base i back hi := by
  induction cs generalizing lo with
  | nil =>
    obtain rfl : lo = hi := h
    obtain rfl : lo = i := Nat.le_antisymm le le'
    exact ⟨[], [], rfl, rfl, rfl⟩
  | cons c cs ih =>
    by_cases here : lo = i
    · subst here
      exact ⟨[], c :: cs, rfl, rfl, h⟩
    · obtain ⟨rfl, placed, rest⟩ := h
      rw [List.forall_mem_cons] at parted
      have apart := Chunk.crosses_eq_false.1 parted.1
      obtain ⟨front, back, rfl, upto, from'⟩ := ih rest parted.2 (by omega)
      exact ⟨c :: front, back, rfl, ⟨rfl, placed, upto⟩, from'⟩

/-- The chunks on either side of an offset are told by where they stop and start. -/
theorem Tiles.filter_append {base : Text} {lo hi i : Nat} {front back : List Chunk}
    (upto : Tiles base lo front i) (from' : Tiles base i back hi) (ne : base ≠ []) :
    (front ++ back).filter (·.stop ≤ i) = front ∧ (front ++ back).filter (i ≤ ·.start) = back := by
  have before : ∀ c ∈ front, c.start < i ∧ c.stop ≤ i := fun c hc => by
    have := (upto.placed hc).forward ne
    have := (upto.within hc).2
    omega
  have behind : ∀ c ∈ back, i ≤ c.start ∧ i < c.stop := fun c hc => by
    have := (from'.placed hc).forward ne
    have := (from'.within hc).1
    omega
  rw [List.filter_append, List.filter_append]
  constructor
  · rw [List.filter_eq_self.2 fun c hc => by simpa using (before c hc).2,
      List.filter_eq_nil_iff.2 fun c hc => by simpa using (behind c hc).2, List.append_nil]
  · rw [List.filter_eq_nil_iff.2 fun c hc => by simpa using (before c hc).1,
      List.filter_eq_self.2 fun c hc => by simpa using (behind c hc).1, List.nil_append]

/-- A cut does not matter to those chunks among which it divides none. -/
theorem Chunk.filter_flatMap_divide {cs : List Chunk} {i : Nat} {p : Chunk → Bool}
    (out : ∀ c ∈ cs, c.crosses i = true → p c = false ∧ p (c.left i) = false ∧
      p (c.right i) = false) : (cs.flatMap (·.divide i)).filter p = cs.filter p := by
  induction cs with
  | nil => rfl
  | cons c cs ih =>
    rw [List.forall_mem_cons] at out
    rw [List.flatMap_cons, List.filter_append, ih out.2, List.filter_cons]
    by_cases cross : c.crosses i = true
    · obtain ⟨whole, left, right⟩ := out.1 cross
      simp [divide, cross, whole, left, right]
    · cases keep : p c <;> simp [divide, cross, keep]

namespace Buffer

/-- What is rendered in front of the text attached to the right of an offset, when the buffer is
cut there. -/
def shownBefore (b : Buffer) (i : Nat) : Text :=
  b.front ++ ((b.divide i).chunks.filter (·.stop ≤ i)).flatMap Chunk.render

/-- What is rendered from the text attached to the right of an offset on, when the buffer is cut
there. -/
def shownFrom (b : Buffer) (i : Nat) : Text :=
  ((b.divide i).chunks.filter (i ≤ ·.start)).flatMap Chunk.render ++ b.back

/-- The chunks in front of an offset, when the buffer is cut there. -/
def chunksUpto (b : Buffer) (i : Nat) : List Chunk := (b.divide i).chunks.filter (·.stop ≤ i)

/-- The chunks behind an offset, when the buffer is cut there. -/
def chunksFrom (b : Buffer) (i : Nat) : List Chunk := (b.divide i).chunks.filter (i ≤ ·.start)

/-- The first offset behind `start` at which a chunk starts, or `stop` if none starts before it. -/
def nextCut (b : Buffer) (start stop : Nat) : Nat :=
  (stop :: (b.chunks.map (·.start)).filter (start < ·)).min (List.cons_ne_nil _ _)

/-- The chunks of a buffer that is cut at the ends of a range: in front of the range, the first one
of it, the others, and behind it. -/
structure Parts (b : Buffer) (start stop : Nat) (pre : List Chunk) (first : Chunk)
    (rest post : List Chunk) : Prop where
  chunks : ((b.divide start).divide stop).chunks = pre ++ first :: (rest ++ post)
  front : Tiles b.base 0 pre start
  start_eq : first.start = start
  placed : first.Placed b.base
  inside : Tiles b.base first.stop rest stop
  back : Tiles b.base stop post (Text.byteSize b.base)

variable {b : Buffer} {m : Layout} {start stop : Nat} {pre rest post : List Chunk} {first : Chunk}

section NextCut

theorem nextCut_le (b : Buffer) (start stop : Nat) : b.nextCut start stop ≤ stop :=
  List.min_le_of_mem List.mem_cons_self

theorem nextCut_le_start {c : Chunk} (hc : c ∈ b.chunks) (lt : start < c.start) (stop : Nat) :
    b.nextCut start stop ≤ c.start :=
  List.min_le_of_mem (List.mem_cons_of_mem _
    (List.mem_filter.2 ⟨List.mem_map_of_mem hc, by simpa using lt⟩))

theorem nextCut_cases (b : Buffer) (start stop : Nat) : b.nextCut start stop = stop ∨
    ∃ c ∈ b.chunks, start < c.start ∧ c.start = b.nextCut start stop := by
  have one : b.nextCut start stop ∈ stop :: (b.chunks.map (·.start)).filter (start < ·) :=
    List.min_mem (List.cons_ne_nil _ _)
  refine (List.mem_cons.1 one).imp_right fun mem => ?_
  obtain ⟨mem, lt⟩ := List.mem_filter.1 mem
  obtain ⟨c, hc, eq⟩ := List.mem_map.1 mem
  exact ⟨c, hc, by simpa [eq] using lt, eq⟩

/-- A range that is not cut inside goes up to its stop. -/
theorem isWhole_iff : b.isWhole start stop = true ↔ b.nextCut start stop = stop := by
  simp only [isWhole, List.all_eq_true, Bool.not_eq_true', Bool.and_eq_false_iff,
    decide_eq_false_iff_not]
  constructor
  · intro whole
    rcases b.nextCut_cases start stop with eq | ⟨c, hc, lt, eq⟩
    · exact eq
    · have := b.nextCut_le start stop
      have := whole c hc
      omega
  · intro eq c hc
    by_cases lt : start < c.start
    · have := nextCut_le_start hc lt stop
      omega
    · exact .inl lt

end NextCut

namespace LaidOut

/-- A replacement that is accepted is a change of the chunks behind two cuts. -/
theorem left_overwrite (h : b.LaidOut m) {content : Text} {options : OverwriteMode}
    (ok : ((Edit.overwrite start stop content options).apply b).accepted = true) :
    start < stop ∧ m.admits b.base start = true ∧ m.admits b.base stop = true ∧
      ((Edit.overwrite start stop content options).apply b).left =
        ((b.divide start).divide stop).replaceChunks start stop content options := by
  rw [(h.apply _).1, Layout.accepts_overwrite_iff] at ok
  obtain ⟨lt, hs, he⟩ := ok
  have range := checkRange_eq_ok.2
    ⟨Nat.le_of_lt lt, (Layout.admits_iff.1 hs).1, (Layout.admits_iff.1 he).1⟩
  obtain ⟨cut, laid⟩ := h.cut hs
  have cut' := (laid.cut (i := stop) he).1
  refine ⟨lt, hs, he, ?_⟩
  simp [Edit.apply, overwrite, range, Nat.ne_of_lt lt, atCut, cut, cut']

theorem divided (h : b.LaidOut m) (hs : m.admits b.base start = true)
    (he : m.admits b.base stop = true) :
    ((b.divide start).divide stop).LaidOut ((m.mark start).mark stop) :=
  ((h.cut hs).2.cut he).2

theorem exists_parts (h : b.LaidOut m) (lt : start < stop) (hs : m.admits b.base start = true)
    (he : m.admits b.base stop = true) :
    ∃ pre first rest post, b.Parts start stop pre first rest post := by
  have tiles := (h.divided hs he).tiled.tiles
  have parted := (parted_divide b start).divide stop
  have upto := Layout.le_of_admits he
  obtain ⟨pre, others, eq, front, tail⟩ :=
    tiles.exists_append parted (Nat.zero_le _) (Nat.le_trans (Nat.le_of_lt lt) upto)
  have parted' : ∀ c ∈ others, c.crosses stop = false := fun c hc =>
    parted_divide _ stop c (by rw [eq]; exact List.mem_append_right _ hc)
  obtain ⟨own, post, rfl, inside, back⟩ := tail.exists_append parted' (Nat.le_of_lt lt) upto
  cases own with
  | nil => exact absurd inside (Nat.ne_of_lt lt)
  | cons first rest =>
    obtain ⟨start_eq, placed, inside⟩ := inside
    exact ⟨pre, first, rest, post, eq, front, start_eq, placed, inside, back⟩

end LaidOut

section Divide

theorem start_of_mem_divide {i : Nat} {d : Chunk} (hd : d ∈ (b.divide i).chunks) :
    d.start = i ∨ ∃ c ∈ b.chunks, c.start = d.start := by
  obtain ⟨c, hc, part⟩ := List.mem_flatMap.1 hd
  unfold Chunk.divide at part
  split at part
  · simp only [List.mem_cons, List.not_mem_nil, or_false] at part
    rcases part with rfl | rfl
    · exact .inr ⟨c, hc, rfl⟩
    · exact .inl rfl
  · rw [List.mem_singleton.1 part]
    exact .inr ⟨c, hc, rfl⟩

/-- A cut behind an offset does not matter to the chunks in front of it. -/
theorem chunksUpto_divide (le : start ≤ stop) :
    ((b.divide start).divide stop).chunks.filter (·.stop ≤ start) = b.chunksUpto start :=
  Chunk.filter_flatMap_divide fun c hc cross => by
    have apart := Chunk.crosses_eq_false.1 (parted_divide b start c hc)
    have inside := Chunk.crosses_iff.1 cross
    have beyond : ¬c.stop ≤ start := by omega
    have behind : ¬stop ≤ start := by omega
    exact ⟨decide_eq_false beyond, decide_eq_false behind, decide_eq_false beyond⟩

/-- A cut in front of an offset does not matter to the chunks behind it. -/
theorem chunksFrom_divide (le : start ≤ stop) :
    ((b.divide stop).divide start).chunks.filter (stop ≤ ·.start) = b.chunksFrom stop :=
  Chunk.filter_flatMap_divide fun c hc cross => by
    have apart := Chunk.crosses_eq_false.1 (parted_divide b stop c hc)
    have inside := Chunk.crosses_iff.1 cross
    have before : ¬stop ≤ c.start := by omega
    have short : ¬stop ≤ start := by omega
    exact ⟨decide_eq_false before, decide_eq_false before, decide_eq_false short⟩

/-- Where a chunk starts, none lies across. -/
theorem Tiled.parted_start (h : b.Tiled) {c : Chunk} (hc : c ∈ b.chunks) : b.Parted c.start := by
  intro d hd
  have le := (h.tiles.placed hc).le
  rw [Chunk.crosses_eq_false]
  rcases h.tiles.apart hc hd with rfl | before | behind
  · exact .inl (Nat.le_refl _)
  · exact .inl (Nat.le_trans le before)
  · exact .inr behind

end Divide

namespace Parts

/-- The chunks from the start of the range on tile the base from there on. -/
theorem tail (p : b.Parts start stop pre first rest post) :
    Tiles b.base start (first :: (rest ++ post)) (Text.byteSize b.base) :=
  ⟨p.start_eq, p.placed, Tiles.append_iff.2 ⟨stop, p.inside, p.back⟩⟩

theorem lt (p : b.Parts start stop pre first rest post) (ne : b.base ≠ []) :
    start < first.stop := by
  rw [← p.start_eq]
  exact p.placed.forward ne

/-- The first chunk goes up to the next cut. -/
theorem stop_eq (p : b.Parts start stop pre first rest post) (h : b.Tiled) (ne : b.base ≠ []) :
    first.stop = b.nextCut start stop := by
  have own : first ∈ ((b.divide start).divide stop).chunks := by simp [p.chunks]
  have lt := p.lt ne
  apply Nat.le_antisymm
  · rcases b.nextCut_cases start stop with eq | ⟨c, hc, behind, eq⟩
    · rw [eq]
      exact p.inside.le
    · have apart := Chunk.crosses_eq_false.1
        ((((h.parted_start hc).divide start).divide stop) first own)
      rw [p.start_eq] at apart
      omega
  · cases rest with
    | nil =>
      rw [show first.stop = stop from p.inside]
      exact b.nextCut_le start stop
    | cons d rest =>
      obtain ⟨meets, placed, inside⟩ := p.inside
      have next : d ∈ ((b.divide start).divide stop).chunks := by simp [p.chunks]
      rw [← meets]
      -- the next chunk starts at an end of the range, or where a chunk started before
      rcases start_of_mem_divide next with eq | ⟨c, hc, eq⟩
      · rw [eq]
        exact b.nextCut_le start stop
      · rcases start_of_mem_divide hc with same | ⟨c', hc', eq'⟩
        · omega
        · rw [← eq, ← eq']
          exact nextCut_le_start hc' (by omega) stop

/-- The chunks in front of the range are those that stop at its start or before. -/
theorem pre_eq (p : b.Parts start stop pre first rest post) (ne : b.base ≠ []) (lt : start < stop) :
    b.chunksUpto start = pre := by
  rw [← chunksUpto_divide (Nat.le_of_lt lt), p.chunks, (p.front.filter_append p.tail ne).1]

/-- The chunks behind the range are those that start at its stop or later. -/
theorem post_eq (p : b.Parts start stop pre first rest post) (h : b.Tiled) (ne : b.base ≠ [])
    (lt : start < stop) (hs : Text.isBoundary b.base start = true)
    (he : Text.isBoundary b.base stop = true) : b.chunksFrom stop = post := by
  have upto : Tiles b.base 0 (pre ++ first :: rest) stop :=
    Tiles.append_iff.2 ⟨start, p.front, p.start_eq, p.placed, p.inside⟩
  have row : ((b.divide start).divide stop).chunks = (pre ++ first :: rest) ++ post := by
    simp [p.chunks]
  rw [← chunksFrom_divide (Nat.le_of_lt lt), ← h.divide_comm hs he, row,
    (upto.filter_append p.back ne).2]

/-- The chunks in front of the range show what is rendered in front of it. -/
theorem front_eq (p : b.Parts start stop pre first rest post) (ne : b.base ≠ [])
    (lt : start < stop) : b.front ++ pre.flatMap Chunk.render = b.shownBefore start := by
  rw [← p.pre_eq ne lt]
  rfl

/-- The chunks behind the range show what is rendered from its stop on. -/
theorem back_eq (p : b.Parts start stop pre first rest post) (h : b.Tiled) (ne : b.base ≠ [])
    (lt : start < stop) (hs : Text.isBoundary b.base start = true)
    (he : Text.isBoundary b.base stop = true) :
    post.flatMap Chunk.render ++ b.back = b.shownFrom stop := by
  rw [← p.post_eq h ne lt hs he]
  rfl

/-- What a replacement makes of the chunks. -/
theorem replaceChunks (p : b.Parts start stop pre first rest post) (ne : b.base ≠ [])
    (lt : start < stop) (content : Text) (options : OverwriteMode) :
    (((b.divide start).divide stop).replaceChunks start stop content options).chunks =
      pre ++ first.replace content options.storeName options.contentOnly ::
        (rest.map Chunk.blank ++ post) := by
  have before : ∀ c ∈ pre, c.start < start := fun c hc => by
    have := (p.front.placed hc).forward ne
    have := (p.front.within hc).2
    omega
  have within : ∀ c ∈ rest, start < c.start ∧ c.start < stop := fun c hc => by
    have := (p.inside.placed hc).forward ne
    have := p.inside.within hc
    have := p.lt ne
    omega
  have behind : ∀ c ∈ post, stop ≤ c.start := fun c hc => (p.back.within hc).1
  simp only [Buffer.replaceChunks, p.chunks, List.map_append, List.map_cons, p.start_eq,
    beq_self_eq_true, if_true]
  refine congrArg₂ (· ++ ·) ?_ (congrArg (_ :: ·) (congrArg₂ (· ++ ·) ?_ ?_))
  · refine (List.map_congr_left fun c hc => ?_).trans (List.map_id pre)
    have lt := before c hc
    simp [Nat.ne_of_lt lt, Nat.lt_asymm lt]
  · refine List.map_congr_left fun c hc => ?_
    have inside := within c hc
    simp [Nat.ne_of_gt inside.1, inside]
  · refine (List.map_congr_left fun c hc => ?_).trans (List.map_id post)
    have le := behind c hc
    simp [Nat.ne_of_gt (Nat.lt_of_lt_of_le lt le), Nat.not_lt.2 le]

section Rims
variable {c : Chunk}

/-- In front of the first chunk is what is attached to the right of the start. -/
theorem before_eq (p : b.Parts start stop pre first rest post) (h : b.LaidOut m)
    (hs : m.admits b.base start = true) (he : m.admits b.base stop = true) :
    first.before = b.rightOf start := by
  have agrees := (h.divided hs he).chunks first (by simp [p.chunks])
  rw [← h.right_eq (Layout.le_of_admits hs), ← agrees.before, p.start_eq]
  rfl

/-- Behind a chunk is what is attached to the left of its stop. -/
theorem after_eq (p : b.Parts start stop pre first rest post) (h : b.LaidOut m)
    (hs : m.admits b.base start = true) (he : m.admits b.base stop = true)
    (hc : c ∈ first :: rest) (le : c.stop ≤ stop) : c.after = b.leftOf c.stop := by
  have agrees := (h.divided hs he).chunks c (by
    rw [p.chunks, ← List.cons_append]
    exact List.mem_append_right _ (List.mem_append_left _ hc))
  rw [← h.left_eq (Nat.le_trans le (Layout.le_of_admits he)), ← agrees.after]
  rfl

/-- What the range shows lies between what is attached to its ends. -/
theorem exists_inner (p : b.Parts start stop pre first rest post) (h : b.LaidOut m)
    (hs : m.admits b.base start = true) (he : m.admits b.base stop = true) :
    ∃ inner, (first :: rest).flatMap Chunk.render = b.rightOf start ++ inner ++ b.leftOf stop := by
  have before := p.before_eq h hs he
  rcases List.eq_nil_or_concat rest with rfl | ⟨others, last, rfl⟩
  · have meets : first.stop = stop := p.inside
    have after := p.after_eq h hs he List.mem_cons_self (Nat.le_of_eq meets)
    rw [meets] at after
    exact ⟨first.body.text, by simp [Chunk.render, before, after]⟩
  · rw [List.concat_eq_append] at p ⊢
    obtain ⟨mid, -, -, -, meets⟩ := Tiles.append_iff.1 p.inside
    have meets : last.stop = stop := meets
    have after := p.after_eq h hs he (c := last) (by simp) (Nat.le_of_eq meets)
    rw [meets] at after
    exact ⟨first.body.text ++ first.after ++ others.flatMap Chunk.render ++ last.before ++
      last.body.text, by simp [Chunk.render, before, after]⟩

end Rims

end Parts

theorem flatMap_render_blank (cs : List Chunk) :
    (cs.map Chunk.blank).flatMap Chunk.render = [] := by
  simp [List.flatMap_map, Chunk.blank, Chunk.replace, Chunk.render, Body.text]

/-- A range of an empty base is empty, and its replacement is refused. -/
theorem base_ne_of_overwrite {content : Text} {options : OverwriteMode}
    (ok : ((Edit.overwrite start stop content options).apply b).accepted = true) : b.base ≠ [] := by
  intro nil
  simp only [Edit.apply, overwrite] at ok
  split at ok
  · simp at ok
  · rename_i check
    obtain ⟨le, -, last⟩ := checkRange_eq_ok.1 check
    have upto := Text.le_byteSize_of_isBoundary last
    rw [nil, Text.byteSize_nil] at upto
    rw [if_pos (by omega)] at ok
    simp at ok

/-- What a replacement leaves of a rendered text. -/
theorem LaidOut.render_replaced (h : b.LaidOut m) {content : Text} {options : OverwriteMode}
    (ok : ((Edit.overwrite start stop content options).apply b).accepted = true) :
    (∃ inner, b.render = b.shownBefore start ++ (b.rightOf start ++ inner ++ b.leftOf stop) ++
        b.shownFrom stop) ∧
      ((Edit.overwrite start stop content options).apply b).left.render =
        b.shownBefore start ++
          ((if options.contentOnly then b.rightOf start else []) ++ content ++
            (if options.contentOnly then b.leftOf (b.nextCut start stop) else [])) ++
          b.shownFrom stop := by
  obtain ⟨lt, hs, he, left⟩ := h.left_overwrite ok
  obtain ⟨pre, first, rest, post, parts⟩ := h.exists_parts lt hs he
  have stop_eq := parts.stop_eq h.tiled h.base_ne
  have before := parts.before_eq h hs he
  have after := parts.after_eq h hs he List.mem_cons_self parts.inside.le
  rw [stop_eq] at after
  rw [← parts.front_eq h.base_ne lt,
    ← parts.back_eq h.tiled h.base_ne lt (Layout.admits_iff.1 hs).1 (Layout.admits_iff.1 he).1]
  constructor
  · obtain ⟨inner, shown⟩ := parts.exists_inner h hs he
    -- the cuts at the ends of the range do not show
    have same : b.render = ((b.divide start).divide stop).render := by
      rw [h.render_eq, (h.divided hs he).render_eq]
      rfl
    refine ⟨inner, ?_⟩
    rw [same, render, parts.chunks, ← shown]
    simp [divide]
  · rw [left, render, parts.replaceChunks h.base_ne lt]
    cases keep : options.contentOnly <;>
      simp [Buffer.replaceChunks, divide, flatMap_render_blank, Chunk.replace, Chunk.render,
        Body.text, before, after]

end Buffer

/-- **What stays when only the content of a range is replaced.** Outside of the range the rendered
text is as it was. Around the content it has what was attached to the right of the start, and to the
left of the next cut. So it has what was attached to the left of the stop if and only if that is the
same text, as it is if the range is not cut inside. -/
theorem content_only_keeps_up_to_next_cut (t : Text) (filename : Option String) (edits : List Edit)
    (start stop : Nat) (content : Text) (storeName : Bool) :
    let b : Buffer := { (Buffer.ofText t).run edits with filename }
    let replaced := (Edit.overwrite start stop content { storeName, contentOnly := true }).apply b
    replaced.accepted = true →
      (∃ inner, b.render = b.shownBefore start ++ (b.rightOf start ++ inner ++ b.leftOf stop) ++
          b.shownFrom stop) ∧
        replaced.left.render = b.shownBefore start ++
          (b.rightOf start ++ content ++ b.leftOf (b.nextCut start stop)) ++ b.shownFrom stop ∧
        (replaced.left.render = b.shownBefore start ++
            (b.rightOf start ++ content ++ b.leftOf stop) ++ b.shownFrom stop ↔
          b.leftOf (b.nextCut start stop) = b.leftOf stop) ∧
        (b.isWhole start stop = true → b.nextCut start stop = stop) := by
  intro b replaced ok
  have base : b.base = t := Buffer.run_base _ edits
  obtain ⟨m, laid⟩ := Buffer.laidOut_reached (base ▸ Buffer.base_ne_of_overwrite ok) filename edits
  obtain ⟨before, after⟩ := laid.render_replaced ok
  have after : replaced.left.render = b.shownBefore start ++
      (b.rightOf start ++ content ++ b.leftOf (b.nextCut start stop)) ++ b.shownFrom stop := after
  refine ⟨before, after, ?_, Buffer.isWhole_iff.1⟩
  rw [after]
  simp only [List.append_cancel_right_eq, List.append_cancel_left_eq]

/-- Text in front of the stop of a range is lost behind a cut inside the range, though nothing shows
there. -/
theorem content_only_loses_behind_cut :
    let b : Buffer := { (Buffer.ofText "abcdef".toList).run
      [.appendLeft 3 [], .appendLeft 5 ['L']] with filename := none }
    let replaced := (Edit.overwrite 1 5 ['X'] { storeName := false, contentOnly := true }).apply b
    b.render = "abcdeLf".toList ∧ b.rightOf 1 = [] ∧ b.leftOf 5 = ['L'] ∧ b.nextCut 1 5 = 3 ∧
      replaced.accepted = true ∧
      replaced.left.render = b.shownBefore 1 ++ (b.rightOf 1 ++ ['X'] ++ b.leftOf 3) ++
        b.shownFrom 5 ∧
      replaced.left.render = "aXf".toList := by
  intro b replaced
  have accepted : replaced.accepted = true := by decide
  have law := content_only_keeps_up_to_next_cut "abcdef".toList none
    [.appendLeft 3 [], .appendLeft 5 ['L']] 1 5 ['X'] false accepted
  exact ⟨by decide, by decide, by decide, by decide, accepted, law.2.1, by decide⟩

end ComponentEdit
