import ComponentEdit.Proofs.Buffer.Replacement
import ComponentEdit.Proofs.SourceMap.LineTokens

/-!
# A replacement absorbs what was done inside its range

An edit whose footprint lies in a range cuts inside the range and changes what is there, so two
buffers before and after it agree outside (`Buffer.AgreesOutside`): cut at the ends of the range,
they have the same chunks in front of it and behind it, and the cuts at its ends meet the same
obstacles. A replacement of the whole range leaves that, a chunk with the content, and blank ones
for the other parts that the range was cut into. Blank chunks neither show nor have tokens, so the
buffer looks as if one chunk were over the range (`Buffer.LaidOut.observed_overwrite`), and whatever
was done inside the range before is lost (`inner_edits_absorbed`).
-/

namespace ComponentEdit
set_option autoImplicit false

/-- A range inside another one has its places inside the places of that one. -/
theorem Place.ofRange_subset {start stop first last : Nat} (lower : start ≤ first)
    (upper : last ≤ stop) : ofRange first last ⊆ ofRange start stop := by
  rintro (i | i | i) ⟨lo, hi⟩
  · exact ⟨Nat.lt_of_le_of_lt lower lo, Nat.le_trans hi upper⟩
  · exact ⟨Nat.le_trans lower lo, Nat.lt_of_lt_of_le hi upper⟩
  · exact ⟨Nat.le_trans lower lo, Nat.lt_of_lt_of_le hi upper⟩

namespace Buffer

/-- Two buffers that differ inside a range at most. -/
structure AgreesOutside (start stop : Nat) (b b' : Buffer) : Prop where
  base : b'.base = b.base
  filename : b'.filename = b.filename
  front : b'.front = b.front
  back : b'.back = b.back
  upto : b'.chunksUpto start = b.chunksUpto start
  behind : b'.chunksFrom stop = b.chunksFrom stop
  obstacle : ∀ i, i = start ∨ i = stop → b'.obstacle? i = b.obstacle? i

variable {b b' : Buffer} {start stop i : Nat}

theorem AgreesOutside.refl (b : Buffer) : b.AgreesOutside start stop b where
  base := rfl
  filename := rfl
  front := rfl
  back := rfl
  upto := rfl
  behind := rfl
  obstacle _ _ := rfl

theorem AgreesOutside.trans {b'' : Buffer} (h : b.AgreesOutside start stop b')
    (h' : b'.AgreesOutside start stop b'') : b.AgreesOutside start stop b'' where
  base := h'.base.trans h.base
  filename := h'.filename.trans h.filename
  front := h'.front.trans h.front
  back := h'.back.trans h.back
  upto := h'.upto.trans h.upto
  behind := h'.behind.trans h.behind
  obstacle i hi := (h'.obstacle i hi).trans (h.obstacle i hi)

/-- A cut inside a range leaves everything outside of it alone. -/
theorem Tiled.agreesOutside_divide (h : b.Tiled) (hs : Text.isBoundary b.base start = true)
    (he : Text.isBoundary b.base stop = true) (inside : start ≤ i ∧ i ≤ stop)
    (free : b.obstacle? i = none) : b.AgreesOutside start stop (b.divide i) where
  base := rfl
  filename := rfl
  front := rfl
  back := rfl
  upto := by
    rw [chunksUpto, h.divide_comm (h.boundary_of_obstacle? free) hs, chunksUpto_divide inside.1]
  behind := by
    rw [chunksFrom, h.divide_comm (h.boundary_of_obstacle? free) he, chunksFrom_divide inside.2]
  obstacle j _ := h.obstacle?_divide free j

theorem Tiled.agreesOutside_divideAll (h : b.Tiled) (hs : Text.isBoundary b.base start = true)
    (he : Text.isBoundary b.base stop = true) {is : List Nat}
    (inside : ∀ i ∈ is, start ≤ i ∧ i ≤ stop) (free : ∀ i ∈ is, b.obstacle? i = none) :
    b.AgreesOutside start stop (b.divideAll is) := by
  induction is generalizing b with
  | nil => exact .refl b
  | cons i is ih =>
    have first := free i List.mem_cons_self
    refine (h.agreesOutside_divide hs he (inside i List.mem_cons_self) first).trans ?_
    refine ih (h.divide (h.boundary_of_obstacle? first)) hs he
      (fun j hj => inside j (List.mem_cons_of_mem _ hj)) fun j hj => ?_
    rw [h.obstacle?_divide first]
    exact free j (List.mem_cons_of_mem _ hj)

end Buffer

namespace Change
variable {b : Buffer} {c : Change} {x : Chunk} {start stop i : Nat}

/-- A change inside a range is cut for inside the range. -/
theorem cuts_inside (inside : c.footprint ⊆ Place.ofRange start stop) (hi : i ∈ c.cuts) :
    start ≤ i ∧ i ≤ stop := by
  cases c with
  | left j f =>
    obtain rfl : i = j := by simpa [cuts] using hi
    have place : start < i ∧ i ≤ stop := inside (show Place.left i ∈ _ from rfl)
    omega
  | right j f =>
    obtain rfl : i = j := by simpa [cuts] using hi
    have place : start ≤ i ∧ i < stop := inside (show Place.right i ∈ _ from rfl)
    omega
  | range first last forward content options =>
    -- the first and the last byte of the change are in the range
    have lower : start ≤ first ∧ first < stop :=
      inside (show Place.byte first ∈ Place.ofRange first last from ⟨Nat.le_refl _, forward⟩)
    have upper : start ≤ last - 1 ∧ last - 1 < stop :=
      inside (show Place.byte (last - 1) ∈ Place.ofRange first last from ⟨by omega, by omega⟩)
    have ends : i = first ∨ i = last := by simpa [cuts] using hi
    omega
  | _ => simp [cuts] at hi

/-- A change inside a range does not lie across its ends. -/
theorem spares_ends (inside : c.footprint ⊆ Place.ofRange start stop)
    (hi : i = start ∨ i = stop) : c.Spares i := by
  cases c with
  | range first last forward content options =>
    have lower := cuts_inside inside (i := first) (by simp [cuts])
    have upper := cuts_inside inside (i := last) (by simp [cuts])
    rcases hi with rfl | rfl
    · exact .inl lower.1
    · exact .inr upper.2
  | _ => trivial

/-- A change inside a range leaves the chunks outside of it as they are. -/
theorem revise_outside {base : Text} (placed : x.Placed base) (ne : base ≠ [])
    (cut : ∀ i ∈ c.cuts, Text.isBoundary base i = true ∧ x.crosses i = false)
    (inside : c.footprint ⊆ Place.ofRange start stop) (out : x.stop ≤ start ∨ stop ≤ x.start) :
    c.revise x = x := by
  have forward := placed.forward ne
  have right : Place.right x.start ∉ c.footprint := fun mem => by
    have place : start ≤ x.start ∧ x.start < stop := inside mem
    omega
  have byte : Place.byte x.start ∉ c.footprint := fun mem => by
    have place : start ≤ x.start ∧ x.start < stop := inside mem
    omega
  have left : Place.left x.stop ∉ c.footprint := fun mem => by
    have place : start < x.stop ∧ x.stop ≤ stop := inside mem
    omega
  simp [revise, Chunk.Revision.run, before_revision x.stop right, body_revision x.stop byte,
    after_revision placed cut left]

/-- A change leaves those chunks of a buffer as they are that it does not revise. -/
theorem filter_run {p : Chunk → Bool} (same : ∀ x, p (c.revise x) = p x)
    (kept : ∀ x ∈ b.chunks, p x = true → c.revise x = x) :
    (c.run b).chunks.filter p = b.chunks.filter p := by
  have chunks : (c.run b).chunks = b.chunks.map c.revise := by rw [run_eq]
  rw [chunks, List.filter_map, show p ∘ c.revise = p from funext same]
  refine (List.map_congr_left fun x hx => ?_).trans (List.map_id _)
  obtain ⟨mem, holds⟩ := List.mem_filter.1 hx
  exact kept x mem holds

/-- A change inside a range leaves everything outside of it alone. -/
theorem agreesOutside_run (h : b.Tiled) (ne : b.base ≠ [])
    (hs : Text.isBoundary b.base start = true) (he : Text.isBoundary b.base stop = true)
    (cut : ∀ i ∈ c.cuts, Text.isBoundary b.base i = true ∧ b.Parted i)
    (inside : c.footprint ⊆ Place.ofRange start stop) :
    b.AgreesOutside start stop (c.run b) := by
  have spares : ∀ i, i = start ∨ i = stop → c.Spares i := fun i hi => spares_ends inside hi
  have parted : ∀ i ∈ c.cuts, b.Parted i := fun i hi => (cut i hi).2
  have kept : ∀ {i : Nat}, Text.isBoundary b.base i = true → ∀ x ∈ (b.divide i).chunks,
      x.stop ≤ start ∨ stop ≤ x.start → c.revise x = x := fun bound x hx out =>
    revise_outside ((h.divide bound).tiles.placed hx) ne
      (fun j hj => ⟨(cut j hj).1, (parted j hj).divide _ x hx⟩) inside out
  have first : Place.left 0 ∉ c.footprint := fun mem => by
    have place : start < 0 ∧ 0 ≤ stop := inside mem
    omega
  have last : Place.right (Text.byteSize b.base) ∉ c.footprint := fun mem => by
    have place : start ≤ Text.byteSize b.base ∧ Text.byteSize b.base < stop := inside mem
    have upto := Text.le_byteSize_of_isBoundary he
    omega
  constructor
  case base => exact base_run c b
  case filename => rw [run_eq]
  case front =>
    rw [run_eq, atFront_eq_id h cut first]
    rfl
  case back =>
    rw [run_eq, atBack_eq_id h cut last]
    rfl
  case upto =>
    rw [Buffer.chunksUpto, run_divide parted (spares start (.inl rfl))]
    exact filter_run (fun x => rfl) fun x hx le => kept hs x hx (.inl (by simpa using le))
  case behind =>
    rw [Buffer.chunksFrom, run_divide parted (spares stop (.inr rfl))]
    exact filter_run (fun x => rfl) fun x hx le => kept he x hx (.inr (by simpa using le))
  case obstacle => exact fun i hi => obstacle?_run parted (spares i hi)

end Change

namespace Buffer
variable {b b' : Buffer} {start stop : Nat}

section Edits
variable (h : b.Tiled) (ne : b.base ≠ []) (hs : Text.isBoundary b.base start = true)
  (he : Text.isBoundary b.base stop = true)
include h ne hs he

/-- An edit inside a range, accepted or refused, leaves everything outside of it alone. -/
theorem Tiled.agreesOutside_apply {e : Edit} (inside : e.footprint ⊆ Place.ofRange start stop) :
    b.AgreesOutside start stop (e.apply b).left := by
  have free : ∀ i ∈ e.cutsMade b, b.obstacle? i = none := fun i hi => (Edit.of_mem_cutsMade hi).2
  have cuts : ∀ i ∈ e.cutsMade b, start ≤ i ∧ i ≤ stop := fun i hi =>
    Change.cuts_inside (e.footprint_change.trans inside) (Edit.of_mem_cutsMade hi).1
  have base := divideAll_base b (e.cutsMade b)
  rw [Edit.left_apply h]
  refine (h.agreesOutside_divideAll hs he cuts free).trans
    (Change.agreesOutside_run (h.divideAll free).1 (base ▸ ne) (base ▸ hs) (base ▸ he) ?_
      ((Edit.footprint_changeMade b e).trans inside))
  intro i hi
  have made := Edit.cuts_changeMade hi
  rw [base]
  exact ⟨h.boundary_of_obstacle? (free i made), parted_divideAll b made⟩

/-- Edits inside a range leave everything outside of it alone. -/
theorem Tiled.agreesOutside_run {edits : List Edit}
    (inside : ∀ e ∈ edits, e.footprint ⊆ Place.ofRange start stop) :
    b.AgreesOutside start stop (b.run edits) := by
  induction edits generalizing b with
  | nil => exact .refl b
  | cons e edits ih =>
    have base := apply_base b e
    rw [List.forall_mem_cons] at inside
    exact (h.agreesOutside_apply ne hs he inside.1).trans
      (ih (h.apply e) (base ▸ ne) (base ▸ hs) (base ▸ he) inside.2)

end Edits

section Replaced
variable {m : Layout} {content : Text}

/-- The buffer with one chunk over a range, which has the content. -/
def withWhole (b : Buffer) (start stop : Nat) (content : Text) : Buffer :=
  { b with chunks := b.chunksUpto start ++
      [{ start, stop, body := .replaced content false }] ++ b.chunksFrom stop }

/-- What there is outside of a range makes up the rest of the buffer. -/
theorem AgreesOutside.withWhole_eq (h : b.AgreesOutside start stop b') (content : Text) :
    b'.withWhole start stop content = b.withWhole start stop content := by
  obtain ⟨base, filename, front, back, chunks⟩ := b
  obtain ⟨base', filename', front', back', chunks'⟩ := b'
  obtain ⟨rfl, rfl, rfl, rfl, upto, behind, -⟩ := h
  simp only [withWhole, upto, behind]

/-- Cuts at the ends of a range meet the same obstacles if the buffers agree outside of it. -/
theorem AgreesOutside.refusal_overwrite (agrees : b.AgreesOutside start stop b') (h : b.Tiled)
    (h' : b'.Tiled) (content : Text) (options : OverwriteMode) :
    ((Edit.overwrite start stop content options).apply b').refusal? =
      ((Edit.overwrite start stop content options).apply b).refusal? := by
  rw [Edit.refusal_apply h', Edit.refusal_apply h]
  refine (Edit.outcome_congr agrees.base fun i hi => agrees.obstacle i ?_).1
  simp only [Edit.change] at hi
  split at hi
  · simpa [Change.cuts] using hi
  · simp [Change.cuts] at hi

/-- A replacement leaves what is outside of its range, a chunk with the content, and blank ones. -/
theorem LaidOut.chunks_overwrite (h : b.LaidOut m)
    (ok : ((Edit.overwrite start stop content {}).apply b).accepted = true) :
    ∃ (first : Chunk) (rest : List Chunk), first.start = start ∧
      ((Edit.overwrite start stop content {}).apply b).left =
        { b with chunks := b.chunksUpto start ++
            (first.replace content false false :: rest.map Chunk.blank) ++ b.chunksFrom stop } := by
  obtain ⟨lt, hs, he, left⟩ := h.left_overwrite ok
  obtain ⟨pre, first, rest, post, parts⟩ := h.exists_parts lt hs he
  have chunks := parts.replaceChunks h.base_ne lt content {}
  rw [← parts.pre_eq h.base_ne lt,
    ← parts.post_eq h.tiled h.base_ne lt (Layout.admits_iff.1 hs).1 (Layout.admits_iff.1 he).1]
    at chunks
  -- a replacement changes the chunks only
  have row : ((b.divide start).divide stop).replaceChunks start stop content {} = { b with
      chunks := (((b.divide start).divide stop).replaceChunks start stop content {}).chunks } := rfl
  refine ⟨first, rest, parts.start_eq, ?_⟩
  rw [left, row, chunks, List.append_assoc]
  rfl

theorem tokensOfAll_blank (b : Buffer) (cs : List Chunk) (hires : Bool) (here : Caret) :
    Stretch.tokensOfAll hires here ((cs.map Chunk.blank).flatMap b.stretchesOf) = [] := by
  induction cs generalizing here with
  | nil => rfl
  | cons c cs ih =>
    simp [Chunk.blank, Chunk.replace, stretchesOf, Stretch.tokensOfAll, Stretch.tokens,
      Stretch.text, ih]

/-- Among its neighbours a row of chunks is told by what it shows and by its tokens. -/
theorem tokens_congr (b : Buffer) (pre post : List Chunk) {cs cs' : List Chunk} {hires : Bool}
    (shown : cs.flatMap Chunk.render = cs'.flatMap Chunk.render)
    (same : ∀ here, Stretch.tokensOfAll hires here (cs.flatMap b.stretchesOf) =
      Stretch.tokensOfAll hires here (cs'.flatMap b.stretchesOf)) :
    Buffer.tokens { b with chunks := pre ++ cs ++ post } hires =
      Buffer.tokens { b with chunks := pre ++ cs' ++ post } hires := by
  -- where a chunk comes from is read off the base
  have stretches : ∀ chunks, Buffer.stretchesOf { b with chunks } = b.stretchesOf := fun _ => rfl
  rw [tokens_around rfl, tokens_around rfl]
  simp only [stretches, shown, same]

/-- How many chunks a range is cut into does not show behind a replacement of it. -/
theorem LaidOut.observed_overwrite (h : b.LaidOut m)
    (ok : ((Edit.overwrite start stop content {}).apply b).accepted = true) :
    ((Edit.overwrite start stop content {}).apply b).left.render =
        (b.withWhole start stop content).render ∧
      ∀ options, ((Edit.overwrite start stop content {}).apply b).left.sourceMap options =
        (b.withWhole start stop content).sourceMap options := by
  obtain ⟨first, rest, here, left⟩ := h.chunks_overwrite ok
  let whole : Chunk := { start, stop, body := .replaced content false }
  have shown : (first.replace content false false :: rest.map Chunk.blank).flatMap Chunk.render =
      [whole].flatMap Chunk.render := by
    rw [List.flatMap_cons, flatMap_render_blank]
    rfl
  have stretches : b.stretchesOf (first.replace content false false) = b.stretchesOf whole := by
    subst here
    rfl
  rw [left]
  constructor
  · simp only [render, withWhole, List.flatMap_append, shown]
    rfl
  · intro options
    have same : ∀ here, Stretch.tokensOfAll options.hires here
        ((first.replace content false false :: rest.map Chunk.blank).flatMap b.stretchesOf) =
        Stretch.tokensOfAll options.hires here ([whole].flatMap b.stretchesOf) := fun here => by
      rw [List.flatMap_cons, Stretch.tokensOfAll_append, tokensOfAll_blank, stretches]
      simp
    rw [sourceMap, sourceMap, tokens_congr b _ _ shown same]
    rfl

end Replaced

end Buffer

/-- **A replacement absorbs what was done inside its range.** When a range can be replaced, it can
be replaced as well after any edits of bytes of the range and of the texts attached inside it,
accepted or refused, and the rendered text and all source maps are then the same as if those edits
had not been made. -/
theorem inner_edits_absorbed (t : Text) (filename : Option String) (edits inner : List Edit)
    (start stop : Nat) (content : Text)
    (inside : ∀ e ∈ inner, e.footprint ⊆ Place.ofRange start stop) :
    let b : Buffer := { (Buffer.ofText t).run edits with filename }
    let e : Edit := .overwrite start stop content { storeName := false, contentOnly := false }
    (e.apply b).accepted = true →
      (e.apply (b.run inner)).accepted = true ∧
        (e.apply (b.run inner)).left.render = (e.apply b).left.render ∧
        ∀ options, (e.apply (b.run inner)).left.sourceMap options =
          (e.apply b).left.sourceMap options := by
  intro b e ok
  have ne : b.base ≠ [] := Buffer.base_ne_of_overwrite ok
  have base : b.base = t := Buffer.run_base _ edits
  obtain ⟨m, laid⟩ := Buffer.laidOut_reached (base ▸ ne) filename edits
  have laid' := laid.run inner
  obtain ⟨-, hs, he, -⟩ := laid.left_overwrite ok
  have agrees := laid.tiled.agreesOutside_run ne (Layout.admits_iff.1 hs).1
    (Layout.admits_iff.1 he).1 inside
  have ok' : (e.apply (b.run inner)).accepted = true := by
    rw [Attempt.accepted, agrees.refusal_overwrite laid.tiled laid'.tiled]
    exact ok
  obtain ⟨render, maps⟩ := laid.observed_overwrite ok
  obtain ⟨render', maps'⟩ := laid'.observed_overwrite ok'
  have same := agrees.withWhole_eq content
  refine ⟨ok', ?_, fun options => ?_⟩
  · rw [render', render, same]
  · rw [maps', maps, same]

/-- Inside the range one stretch is replaced, with its name stored, a removal is refused halfway
through that replacement, and texts are attached at both ends. -/
theorem replaced_word_absorbs :
    let b : Buffer := { (Buffer.ofText "abcdef".toList).run [.prependRight 5 ['R']] with
      filename := none }
    let inner : List Edit := [.overwrite 2 4 ['Y', '\n', 'Y'] { storeName := true }, .remove 1 3,
      .appendLeft 5 ['x'], .prependRight 1 ['y']]
    let e : Edit := .overwrite 1 5 ['Z'] { storeName := false, contentOnly := false }
    (∀ x ∈ inner, x.footprint ⊆ Place.ofRange 1 5) ∧ (e.apply b).accepted = true ∧
      (b.run inner).render = "aybY\nYexRf".toList ∧
      (e.apply (b.run inner)).accepted = true ∧
      (e.apply (b.run inner)).left.render = (e.apply b).left.render ∧
      (∀ options, (e.apply (b.run inner)).left.sourceMap options =
        (e.apply b).left.sourceMap options) ∧
      (e.apply b).left.render = "aZRf".toList := by
  intro b inner e
  have inside : ∀ x ∈ inner, x.footprint ⊆ Place.ofRange 1 5 := by
    simp only [inner, List.forall_mem_cons]
    refine ⟨Place.ofRange_subset (by decide) (by decide),
      Place.ofRange_subset (by decide) (by decide), ?_, ?_, by simp⟩
    · rintro _ rfl
      exact (show 1 < 5 ∧ 5 ≤ 5 by decide)
    · rintro _ rfl
      exact (show 1 ≤ 1 ∧ 1 < 5 by decide)
  have accepted : (e.apply b).accepted = true := by decide
  obtain ⟨accepted', render, maps⟩ := inner_edits_absorbed "abcdef".toList none
    [.prependRight 5 ['R']] inner 1 5 ['Z'] inside accepted
  exact ⟨inside, accepted, by decide, accepted', render, maps, by decide⟩

end ComponentEdit
