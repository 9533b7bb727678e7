import ComponentEdit.Proofs.Block.InPlace
import ComponentEdit.Proofs.Buffer.Rims

/-!
# Blocks among earlier edits

A block over a range of a text that was edited before. An edit of the block shows some of
what was attached earlier around the text it puts in (`Buffer.kept`). The document has the
block in place of its range exactly if that is what stands around the addressed range in the
rendered text (`Buffer.standing`); so it is at offsets inside the block and at offsets to
which nothing was attached (`document_in_place_upstream_iff`). At the edges of a block it
may not be: what was attached to the right of the start goes with the first character when that
is removed.
-/

namespace ComponentEdit
set_option autoImplicit false

/-- The attached text that an edit shows around what it puts in if there are no characters. What
is attached to the right of the only offset comes before what is attached to its left. -/
def Edit.keptHollow (left right : Text) : Edit → Rim
  | .append _ | .appendRight _ _ | .prependLeft _ _ | .overwrite _ _ _ _ | .remove _ _ =>
    ⟨right, left⟩
  | .prepend _ | .prependRight _ _ => ⟨[], right ++ left⟩
  | .appendLeft _ _ => ⟨right ++ left, []⟩

namespace Buffer
variable {b : Buffer} {m : Layout} {part shown : Span} {e : Edit}

/-- Nothing is attached to an offset. -/
def Bare (b : Buffer) (i : Nat) : Prop := b.leftOf i = [] ∧ b.rightOf i = []

instance (b : Buffer) (i : Nat) : Decidable (b.Bare i) :=
  inferInstanceAs (Decidable (b.leftOf i = [] ∧ b.rightOf i = []))

/-- The attached text around the range that an edit of `part` addresses, in the rendered text,
where the part is at `shown`. -/
def standing (b : Buffer) (part shown : Span) (e : Edit) : Rim :=
  let s := e.splice part.length
  ⟨(b.rimAt (part.start + s.start) (shown.start + s.start)).front,
    (b.rimAt (part.start + s.stop) (shown.start + s.stop)).back⟩

/-- The attached text that an edit of `part` shows around what it puts in. -/
def kept (b : Buffer) (part : Span) (e : Edit) : Rim :=
  let i := part.start + (e.splice part.length).start
  if b.base.isEmpty then e.keptHollow (b.leftOf i) (b.rightOf i)
  else e.kept b.leftOf b.rightOf b.isWhole part

/-- The rendered text has at `shown` what the base has at `part`. -/
structure Exhibits (b : Buffer) (part shown : Span) : Prop where
  fits : shown.Fits b.render
  stop : part.stop = part.start + shown.length
  shows : ∀ k, Text.isBoundary (Text.slice b.render shown.start shown.stop) k = true →
    b.Shows (part.start + k) (shown.start + k)
  quiet : ∀ m, b.LaidOut m → ∀ k, 0 < k → k < shown.length →
    m.left (part.start + k) = [] ∧ m.right (part.start + k) = []

/-- A range that has a base span is there in the base. -/
theorem exhibits_of_baseSpan? (fits : shown.Fits b.render) (found : b.baseSpan? shown = some part) :
    b.Exhibits part shown := by
  have size : Text.byteSize (Text.slice b.render shown.start shown.stop) = shown.length :=
    Text.byteSize_slice fits.start fits.stop fits.le
  by_cases forward : shown.start < shown.stop
  · obtain ⟨-, traced⟩ := (baseSpan?_eq_some_iff (s := part) forward).1 found
    obtain ⟨x, y, run, text⟩ := exists_run fits.le fits.start fits.stop traced
    have place : Text.byteSize x.text = shown.start := by
      have start := fits.start
      rw [text]
      simpa [Text.isBoundary] using start
    refine ⟨fits, traced.stop, fun k hk => ?_, fun m laid k lo hi => ?_⟩
    · have filled := Text.slice_ne_nil fits.start fits.stop forward
      obtain ⟨u, v, split, rfl⟩ := Text.isBoundary_iff.1 hk
      rw [split] at run filled
      rw [← place]
      exact shows_of_run run filled
    · exact laid.quiet_of_run run lo (by rw [size]; exact hi)
  · have point : shown.stop = shown.start := by
      have := fits.le
      omega
    have located := baseSpan?_of_empty (b := b) (Nat.le_of_not_lt forward)
    rw [show (⟨shown.start, shown.stop⟩ : Span) = shown from rfl, found, eq_comm,
      Option.map_eq_some_iff] at located
    obtain ⟨copy, first, rfl⟩ := located
    have reaches : copy.reaches shown.start = true := by simpa using List.find?_some first
    have shows := shows_of_reaches fits.start (List.mem_of_find?_eq_some first) reaches
    have none : shown.length = 0 := by
      unfold Span.length
      omega
    refine ⟨fits, by rw [none]; rfl, fun k hk => ?_, fun m laid k lo hi => by omega⟩
    have within := Text.le_byteSize_of_isBoundary hk
    obtain rfl : k = 0 := by omega
    exact shows

namespace Exhibits

theorem size (ex : b.Exhibits part shown) :
    Text.byteSize (Text.slice b.render shown.start shown.stop) = part.length := by
  rw [Text.byteSize_slice ex.fits.start ex.fits.stop ex.fits.le, Span.length, ex.stop, Span.length]
  omega

theorem le (ex : b.Exhibits part shown) : part.start ≤ part.stop := by
  have := ex.stop
  omega

theorem last (ex : b.Exhibits part shown) : part.start + part.length = part.stop := by
  have := ex.le
  unfold Span.length
  omega

/-- A part that is shown is there in the base. -/
theorem bound (ex : b.Exhibits part shown) (laid : b.LaidOut m) :
    part.stop ≤ Text.byteSize b.base := by
  have stop := (laid.render_at (ex.shows _ (Text.isBoundary_byteSize _))).1
  rw [ex.size, ex.last] at stop
  exact Text.le_byteSize_of_isBoundary stop

/-- Nothing is attached inside. -/
theorem bare_inside (ex : b.Exhibits part shown) (laid : b.LaidOut m) {i : Nat}
    (lo : part.start < i) (hi : i < part.stop) : b.Bare i := by
  have le : i ≤ Text.byteSize b.base := Nat.le_trans (Nat.le_of_lt hi) (ex.bound laid)
  have quiet := ex.quiet m laid (i - part.start) (by omega) (by have := ex.stop; omega)
  rw [Nat.add_sub_cancel' (Nat.le_of_lt lo), laid.left_eq le, laid.right_eq le] at quiet
  exact quiet

end Exhibits

/-- An edit of `part` changes the rendered text only where it shows the addressed range: the text
put in stands there, with the text kept around it for the one that was standing around the range. -/
def Framed (b : Buffer) (part shown : Span) (e : Edit) : Prop :=
  let s := e.splice part.length
  ∃ x y, b.render.takeBytes (shown.start + s.start) = x ++ (b.standing part shown e).front ∧
    b.render.dropBytes (shown.start + s.stop) = (b.standing part shown e).back ++ y ∧
    ((e.within part).apply b).left.render = x ++ (b.kept part e).around s.content ++ y

theorem LaidOut.kept_eq (h : b.LaidOut m) (ex : b.Exhibits part shown) (fits : e.Fits part.length) :
    e.kept m.left m.right m.uncut part = b.kept part e := by
  have stop := ex.bound h
  have filled : b.base.isEmpty = false := List.isEmpty_eq_false_iff.2 h.base_ne
  have le := ex.le
  have inside : ∀ i ≤ part.length, part.start + i ≤ Text.byteSize b.base := fun i hi => by
    unfold Span.length at hi
    omega
  have first : part.start ≤ Text.byteSize b.base := by omega
  cases e with
  | append content => simp [kept, filled, Edit.kept, h.left_eq stop, h.right_eq stop]
  | prepend content => simp [kept, filled, Edit.kept, h.left_eq first, h.right_eq first]
  | appendLeft i content | prependLeft i content | appendRight i content | prependRight i content =>
    have here := inside i fits
    simp [kept, filled, Edit.kept, h.left_eq here, h.right_eq here]
  | overwrite i j content options =>
    have start := inside i (Nat.le_trans (Nat.le_of_lt fits.1) fits.2)
    have stop := inside j fits.2
    simp [kept, filled, Edit.kept, h.left_eq start, h.right_eq start, h.left_eq stop,
      h.right_eq stop, h.uncut_eq stop]
  | remove i j =>
    have start := inside i (Nat.le_trans fits.1 fits.2)
    have stop := inside j fits.2
    simp [kept, filled, Edit.kept, h.left_eq start, h.right_eq start, h.right_eq stop]

/-- The addressed range in the rendered text and what an edit makes of it, in a base that has
characters. -/
theorem LaidOut.framed (h : b.LaidOut m) (ex : b.Exhibits part shown) (fits : e.Fits part.length)
    (addressed : Layout.Addressed (Text.slice b.render shown.start shown.stop)
      (e.splice part.length).start (e.splice part.length).stop)
    (ok : ((e.within part).apply b).accepted = true) : b.Framed part shown e := by
  obtain ⟨le, hs, he⟩ := addressed
  obtain ⟨start, front, -⟩ := h.render_at (ex.shows _ hs)
  obtain ⟨stop, -, back⟩ := h.render_at (ex.shows _ he)
  obtain ⟨accepts, next⟩ := h.apply (e.within part)
  rw [ok] at accepts
  rw [Layout.apply_of_accepts accepts.symm] at next
  obtain ⟨p, y, q, split, lo, hi⟩ := Text.exists_parts start stop (Nat.add_le_add_left le _)
  have upto : part.start + (e.splice part.length).stop ≤ part.stop := by
    have := Text.le_byteSize_of_isBoundary he
    have := ex.size
    have := ex.last
    omega
  have quiet : ∀ k, Text.byteSize p < k → k < Text.byteSize p + Text.byteSize y → m.left k = [] :=
    fun k lo' hi' => by
      have inside := (ex.quiet m h (k - part.start) (by omega) (by have := ex.stop; omega)).1
      rwa [Nat.add_sub_cancel' (by omega)] at inside
  have render := m.render_effect (Text.byteSize b.base) q ex.le fits lo hi quiet
  refine ⟨m.upTo 0 p, m.after (Text.byteSize p + Text.byteSize y) q, ?_, ?_, ?_⟩
  · rw [front, standing]
    simp only
    rw [lo, split, Text.takeBytes_byteSize_append]
  · rw [back, standing]
    simp only
    rw [hi, split, ← List.append_assoc p, ← Text.byteSize_append, Text.dropBytes_byteSize_append]
  · rw [next.render_eq, apply_base, split, ← h.kept_eq ex fits]
    rw [split] at render
    exact render

/-- Without characters there is only one place where an offset of the base is shown. -/
theorem Shows.hollow {i place : Nat} (h : b.Tiled) (nil : b.base = []) (shows : b.Shows i place) :
    i = 0 ∧ ∃ s : Seam, b = s.buffer b.filename ∧ place = Text.byteSize (s.front ++ s.right) := by
  obtain ⟨pre, c, post, s, r, chunks, body, rfl, rfl⟩ := shows
  obtain ⟨d, single⟩ := h.single nil
  obtain ⟨rfl, rfl, rfl⟩ : pre = [] ∧ d = c ∧ post = [] := by
    rw [single] at chunks
    cases pre with
    | nil => simpa [eq_comm] using chunks
    | cons x pre => simp at chunks
  have tiles := h.tiles
  have placed := tiles.placed (c := d) (by simp [single])
  have within := (tiles.within (c := d) (by simp [single])).2
  have copied := placed.copied _ body
  rw [nil] at copied within
  rw [Text.byteSize_nil] at within
  have le := placed.le
  have text : s ++ r = [] := by
    rw [copied]
    simp [Text.slice, Text.takeBytes, Text.dropBytes]
  obtain ⟨rfl, rfl⟩ := List.append_eq_nil_iff.1 text
  refine ⟨by simp only [Text.byteSize_nil]; omega,
    { front := b.front, left := d.after, right := d.before, back := b.back }, ?_, by simp⟩
  obtain ⟨lo, hi, before, body', after⟩ := d
  obtain ⟨base, filename, front, back, chunks'⟩ := b
  simp only at nil single body within le
  obtain rfl := Nat.le_zero.1 within
  obtain rfl := Nat.le_zero.1 le
  rw [single, body, nil]
  rfl

/-- An edit of a base without characters shows the seam around what it puts in. -/
theorem render_apply_hollow (s : Seam) (filename : Option String) (fits : e.Fits 0) :
    ((e.within ⟨0, 0⟩).apply (s.buffer filename)).left.render =
      s.front ++ (e.keptHollow s.left s.right).around (e.splice 0).content ++ s.back := by
  rw [(hollow_apply s filename (e.within ⟨0, 0⟩)).2 (Seamed.fits_within_hollow fits),
    Seam.render_buffer]
  cases e with
  | append content | prepend content =>
    simp [Edit.within, Seam.step, Seam.text, Edit.keptHollow, Rim.around, Edit.splice]
  | appendLeft i content | prependLeft i content | appendRight i content | prependRight i content =>
    obtain rfl := Nat.le_zero.1 fits
    simp [Edit.within, Seam.step, Seam.text, Edit.keptHollow, Rim.around, Edit.splice]
  | overwrite i j content options => exact absurd fits.1 (by have := fits.2; omega)
  | remove i j =>
    obtain rfl := Nat.le_zero.1 fits.2
    obtain rfl := Nat.le_zero.1 fits.1
    simp [Edit.within, Seam.step, Seam.text, Edit.keptHollow, Rim.around, Edit.splice]

/-- Without characters the only part is at the start. -/
theorem Exhibits.part_hollow (ex : b.Exhibits part shown) (h : b.Tiled) (nil : b.base = []) :
    part = ⟨0, 0⟩ := by
  have first := ((ex.shows 0 (Text.isBoundary_zero _)).hollow h nil).1
  have last := ((ex.shows _ (Text.isBoundary_byteSize _)).hollow h nil).1
  rw [ex.size, ex.last] at last
  obtain ⟨lo, hi⟩ := part
  obtain rfl : lo = 0 := first
  obtain rfl : hi = 0 := last
  rfl

/-- The only place in the rendered text and what an edit makes of it, without characters. -/
theorem Tiled.framed (h : b.Tiled) (nil : b.base = []) (ex : b.Exhibits part shown)
    (fits : e.Fits part.length)
    (addressed : Layout.Addressed (Text.slice b.render shown.start shown.stop)
      (e.splice part.length).start (e.splice part.length).stop) : b.Framed part shown e := by
  obtain rfl := ex.part_hollow h nil
  obtain ⟨start, s, eq, place⟩ := (ex.shows _ addressed.2.1).hollow h nil
  obtain ⟨stop, -⟩ := (ex.shows _ addressed.2.2).hollow h nil
  have ends : (e.splice 0).start = 0 ∧ (e.splice 0).stop = 0 :=
    ⟨(Nat.zero_add _).symm.trans start, (Nat.zero_add _).symm.trans stop⟩
  have rim : b.rimAt 0 shown.start = ⟨s.right, s.left⟩ := by
    rw [eq]
    rfl
  have left : b.leftOf 0 = s.left := by
    rw [eq]
    rfl
  have right : b.rightOf 0 = s.right := by
    rw [eq]
    rfl
  have render : b.render = s.front ++ s.right ++ (s.left ++ s.back) := by
    rw [eq, Seam.render_buffer]
    simp [Seam.text]
  have length : Span.length ⟨0, 0⟩ = 0 := rfl
  rw [length, ends.1, Nat.add_zero] at place
  refine ⟨s.front, s.back, ?_, ?_, ?_⟩
  · simp only [standing, length, ends, Nat.add_zero, rim]
    rw [render, place, Text.takeBytes_byteSize_append]
  · simp only [standing, length, ends, Nat.add_zero, rim]
    rw [render, place, Text.dropBytes_byteSize_append]
  · have document := render_apply_hollow s b.filename fits
    rw [← eq] at document
    simp only [document, kept, nil, List.isEmpty_nil, if_true, length, ends, left, right]

/-- Around a bare range no attached text is standing, and none is kept around what is put in. -/
theorem Exhibits.around_of_bare (ex : b.Exhibits part shown)
    (start : b.Bare (part.start + (e.splice part.length).start))
    (stop : b.Bare (part.start + (e.splice part.length).stop)) :
    b.kept part e = {} ∧ b.standing part shown e = {} := by
  have rim : ∀ {i place}, b.Bare i → b.rimAt i place = {} := by
    rintro i place ⟨left, right⟩
    simp [rimAt, left, right]
  refine ⟨?_, by simp [standing, rim start, rim stop]⟩
  by_cases nil : b.base.isEmpty = true
  · simp only [kept, nil, if_true, start.1, start.2]
    cases e <;> rfl
  · rw [kept, if_neg nil]
    exact Edit.kept_of_bare _ _ _ ex.le start stop

end Buffer

namespace Block
variable {b : Block} {source : Source} {e : Edit} {next : Anchored}

/-- What a block over a range of an edited text is. -/
theorem exhibits_of_create {d : Descriptor} {range : Option Span}
    (created : create source d range = .ok b) :
    let shown := resolve source.buffer.render d range
    b.replacements = [] ∧ source.buffer.Exhibits b.span shown ∧
      b.snippet = .ofText (Text.slice source.buffer.render shown.start shown.stop) := by
  intro shown
  obtain ⟨own, fits, found, snippet⟩ := create_inversion created
  exact ⟨own, Buffer.exhibits_of_baseSpan? fits found, snippet⟩

/-- The document of a block that was just edited. -/
theorem edited_text (free : source.access = .free) :
    (b.edited source e).source.map Source.text =
      some (.ok ((e.within b.span).apply source.buffer).left.render) := by
  simp [edited, Source.text, Source.read, free, Except.map]

/-- An edited block is in place of its range exactly if the text put in stands between the
attached text that was standing around what it replaces. -/
theorem edited_inPlace_iff {shown : Span} (ex : source.buffer.Exhibits b.span shown)
    (snippet : b.snippet = .ofText (Text.slice source.buffer.render shown.start shown.stop))
    (ok : (e.apply b.snippet).accepted = true) (free : source.access = .free)
    (framed : source.buffer.Framed b.span shown e) :
    (b.edited source e).InPlace source.buffer.render shown ↔
      (source.buffer.kept b.span e).around (e.splice b.span.length).content =
        (source.buffer.standing b.span shown e).around (e.splice b.span.length).content := by
  obtain ⟨x, y, front, back, document⟩ := framed
  rw [snippet] at ok
  obtain ⟨-, ⟨-, hs, he⟩, block⟩ := Buffer.render_apply_ofText ok
  rw [ex.size] at hs he block
  have own : (b.edited source e).block.render = (e.apply b.snippet).left.render := rfl
  have expected : ∀ content, x ++ (source.buffer.standing b.span shown e).front ++ content ++
      ((source.buffer.standing b.span shown e).back ++ y) =
        x ++ (source.buffer.standing b.span shown e).around content ++ y := by simp [Rim.around]
  rw [Anchored.InPlace, edited_text free, own, snippet, block,
    Text.splice_slice ex.fits.start ex.fits.stop ex.fits.le hs he, front, back, document, expected]
  simp only [Option.some.injEq, Except.ok.injEq, List.append_cancel_right_eq,
    List.append_cancel_left_eq]

end Block

/-- In a buffer that was edited before, an edit of a part that is shown changes the rendered text
only where it is addressed, and nothing is attached inside the part. -/
theorem Buffer.framed_run {t : Text} {filename : Option String} {upstream : List Edit} {b : Buffer}
    (buffer : b = { (ofText t).run upstream with filename := filename }) {part shown : Span}
    (ex : b.Exhibits part shown) {e : Edit} (fits : e.Fits part.length)
    (addressed : Layout.Addressed (Text.slice b.render shown.start shown.stop)
      (e.splice part.length).start (e.splice part.length).stop)
    (ok : ((e.within part).apply b).accepted = true) :
    b.Framed part shown e ∧ ∀ i, part.start < i ∧ i < part.stop → b.Bare i := by
  have base : b.base = t := by
    rw [buffer]
    exact run_base _ upstream
  by_cases nil : t = []
  · have tiled : b.Tiled := buffer ▸ tiled_reached t filename upstream
    have empty := base.trans nil
    refine ⟨tiled.framed empty ex fits addressed, fun i within => ?_⟩
    rw [ex.part_hollow tiled empty] at within
    exact absurd within.2 (Nat.not_lt_zero i)
  · obtain ⟨m, laid⟩ := laidOut_reached nil filename upstream
    rw [← buffer] at laid
    exact ⟨laid.framed ex fits addressed ok, fun i within => ex.bare_inside laid within.1 within.2⟩

open Block

/-- **What an edit of a block makes of a text that was edited before.** Any edits come first, a
block is made over a range of the rendered text, and an edit of it is carried out. The document
then shows what the edit puts in for the range that it addresses, and changes nothing else but
the text that was attached to the ends of that range, of which it shows what the edit keeps.
So it is the rendered text with the block in place of its range if and only if that and what
was standing there read alike around the text put in, as they do if the addressed offsets are inside
the block or have nothing attached to them. -/
theorem document_in_place_upstream_iff (t : Text) (filename : Option String) (upstream : List Edit)
    (source : Source)
    (buffer : source.buffer = { (Buffer.ofText t).run upstream with filename := filename })
    (d : Descriptor) (range : Option Span) (b : Block)
    (created : Block.create source d range = .ok b) (e : Edit) (next : Anchored)
    (done : b.apply (some source) e = .done next) :
    let text := source.buffer.render
    let shown := Block.resolve text d range
    let s := e.splice b.span.length
    let standing := source.buffer.standing b.span shown e
    let kept := source.buffer.kept b.span e
    (∃ x y, text.takeBytes (shown.start + s.start) = x ++ standing.front ∧
        text.dropBytes (shown.start + s.stop) = standing.back ++ y ∧
        next.source.map Source.text = some (.ok (x ++ kept.around s.content ++ y))) ∧
      (next.InPlace text shown ↔ kept.around s.content = standing.around s.content) ∧
      ((∀ i ∈ [b.span.start + s.start, b.span.start + s.stop],
          b.span.start < i ∧ i < b.span.stop ∨ source.buffer.Bare i) →
        next.InPlace text shown) := by
  intro text shown s standing kept
  obtain ⟨own, ex, snippet⟩ := exhibits_of_create created
  obtain ⟨rfl, free, ok, taken⟩ := eq_edited_of_done own done
  obtain ⟨fits, addressed, -⟩ := Buffer.render_apply_ofText (snippet ▸ ok)
  rw [ex.size] at fits addressed
  obtain ⟨framed, bare⟩ := Buffer.framed_run buffer ex fits addressed taken
  have law := edited_inPlace_iff ex snippet ok free framed
  refine ⟨?_, law, fun quiet => law.2 ?_⟩
  · obtain ⟨x, y, front, back, document⟩ := framed
    exact ⟨x, y, front, back, by rw [edited_text free, document]⟩
  · have start := (quiet _ List.mem_cons_self).elim (bare _) id
    have stop := (quiet _ (List.mem_cons_of_mem _ List.mem_cons_self)).elim (bare _) id
    obtain ⟨none, nothing⟩ := ex.around_of_bare start stop
    rw [none, nothing]

/-- Text that was put in front of a word stays there while the word is overwritten, if only its
content is. -/
theorem overwrite_behind_insertion_in_place :
    let source : Source := { buffer := (Buffer.ofText "abc".toList).run [.appendRight 1 ['X']] }
    ∃ b next, Block.create source {} (some ⟨2, 3⟩) = .ok b ∧
      b.apply (some source) (.overwrite 0 1 ['B'] { contentOnly := true }) = .done next ∧
      next.InPlace "aXbc".toList ⟨2, 3⟩ ∧
      next.source.map Source.text = some (.ok "aXBc".toList) := by
  intro source
  have created : Block.create source {} (some ⟨2, 3⟩) =
      .ok { descriptor := {}, span := ⟨1, 2⟩, snippet := .ofText ['b'] } := rfl
  refine ⟨_, _, created, rfl, ?_, rfl⟩
  exact (document_in_place_upstream_iff "abc".toList none [.appendRight 1 ['X']] source rfl {}
    (some ⟨2, 3⟩) _ created (.overwrite 0 1 ['B'] { contentOnly := true }) _ rfl).2.1.2
      (by decide +kernel)

/-- Text that was put in front of a word goes with the word when it is removed. -/
theorem removal_behind_insertion_not_in_place :
    let source : Source := { buffer := (Buffer.ofText "abc".toList).run [.appendRight 1 ['X']] }
    ∃ b next, Block.create source {} (some ⟨2, 3⟩) = .ok b ∧
      b.apply (some source) (.remove 0 1) = .done next ∧
      next.block.render = [] ∧ next.source.map Source.text = some (.ok "ac".toList) ∧
      source.buffer.render = "aXbc".toList ∧ ¬next.InPlace "aXbc".toList ⟨2, 3⟩ := by
  refine ⟨_, _, rfl, rfl, rfl, rfl, rfl, fun inPlace => ?_⟩
  have text : (some (.ok "ac".toList) : Option (Except Error Text)) = some (.ok "aXc".toList) :=
    inPlace
  exact absurd (Except.ok.inj (Option.some.inj text)) (by decide)

end ComponentEdit
