import ComponentEdit.Proofs.Buffer.Tiling

/-!
# Chunks in an ordered map

A `FiledBuffer` keeps its chunks in a map ordered by offset and finds them by key
only: a cut looks at the last chunk filed before the offset, text goes to the left
of an offset into one of the last two chunks filed up to it, and a range is changed
from its first key on. A cut reads its two parts from the base.
-/

namespace ComponentEdit
set_option autoImplicit false

/-- Chunks under distinct keys, in ascending order of the keys. -/
abbrev ChunkMap := List (Nat × Chunk)

namespace ChunkMap

/-- Whether something is filed under `k`. -/
def has (m : ChunkMap) (k : Nat) : Bool := m.any (·.1 == k)

/-- File a chunk under `k`, in place of what was there. -/
def insert (m : ChunkMap) (k : Nat) (c : Chunk) : ChunkMap :=
  m.filter (fun e => decide (e.1 < k)) ++ (k, c) :: m.filter (fun e => decide (k < e.1))

/-- Change the chunks under the keys that satisfy `p`. -/
def modify (m : ChunkMap) (p : Nat → Bool) (f : Chunk → Chunk) : ChunkMap :=
  m.map fun e => if p e.1 then (e.1, f e.2) else e

/-- The last entry filed before `k`. -/
def before? (m : ChunkMap) (k : Nat) : Option (Nat × Chunk) :=
  (m.filter fun e => decide (e.1 < k)).getLast?

/-- The entry whose chunk stops at `i`, looked for among the last two filed up to `i`. -/
def stoppingAt? (m : ChunkMap) (i : Nat) : Option (Nat × Chunk) :=
  ((m.filter fun e => decide (e.1 ≤ i)).reverse.take 2).find? (·.2.stop == i)

/-- Whether a key lies in a range. -/
def inRange (start stop k : Nat) : Bool := decide (start ≤ k) && decide (k < stop)

theorem inRange_iff {start stop k : Nat} : inRange start stop k = true ↔ start ≤ k ∧ k < stop := by
  simp [inRange]

/-- The first entry of a range. -/
def first? (m : ChunkMap) (start stop : Nat) : Option (Nat × Chunk) :=
  m.find? fun e => inRange start stop e.1

end ChunkMap

namespace Chunk

/-- The two parts of a chunk cut at `i`, copied bodies read from the base again. -/
def split (base : Text) (c : Chunk) (i : Nat) : Chunk × Chunk :=
  match c.body with
  | .copied _ =>
    ({ c with stop := i, body := .copied (Text.slice base c.start i), after := [] },
     { start := i, stop := c.stop, body := .copied (Text.slice base i c.stop), after := c.after })
  | .replaced _ named =>
    ({ c with stop := i, body := .replaced [] named, after := [] },
     { start := i, stop := c.stop, body := .replaced [] false, after := c.after })

/-- A chunk under its start. -/
def file (c : Chunk) : Nat × Chunk := (c.start, c)

@[simp] theorem file_fst (c : Chunk) : c.file.1 = c.start := rfl

@[simp] theorem file_snd (c : Chunk) : c.file.2 = c := rfl

end Chunk

/-- A buffer that files its chunks in an ordered map. -/
structure FiledBuffer where
  base : Text
  filename : Option String := none
  front : Text := []
  back : Text := []
  chunks : ChunkMap

namespace FiledBuffer

/-- The buffer with the chunks in the order of their keys. -/
def unfiled (b : FiledBuffer) : Buffer :=
  { base := b.base, filename := b.filename, front := b.front, back := b.back,
    chunks := b.chunks.map (·.2) }

/-- The buffer of a text: one chunk under 0. -/
def ofText (t : Text) : FiledBuffer := { base := t, chunks := [(0, .ofText t)] }

/-- Make sure that a chunk starts at `i`, unless `i` is the end. -/
def split (b : FiledBuffer) (i : Nat) : Except Error FiledBuffer := do
  b.unfiled.checkIndex i
  if b.chunks.has i then .ok b
  else match b.chunks.before? i with
    | none => .ok b
    | some (k, c) =>
      if c.stop ≤ i then .ok b
      else if c.body.isDivisible then
        let parts := c.split b.base i
        .ok { b with chunks := (b.chunks.modify (· == k) fun _ => parts.1).insert i parts.2 }
      else .error (b.unfiled.splitError c i)

/-- Change the text attached to the left of `i`. -/
def attachLeft (b : FiledBuffer) (i : Nat) (f : Text → Text) : FiledBuffer :=
  match b.chunks.stoppingAt? i with
  | some (k, _) => { b with chunks := b.chunks.modify (· == k) fun c => { c with after := f c.after } }
  | none => { b with front := f b.front }

/-- Change the text attached to the right of `i`. -/
def attachRight (b : FiledBuffer) (i : Nat) (f : Text → Text) : FiledBuffer :=
  if b.chunks.has i then
    { b with chunks := b.chunks.modify (· == i) fun c => { c with before := f c.before } }
  else { b with back := f b.back }

/-- Blank the chunks of a range and put `content` in place of the first. -/
def replaceRange (b : FiledBuffer) (start stop : Nat) (content : Text) (options : OverwriteMode) :
    FiledBuffer :=
  match b.chunks.first? start stop with
  | none => b
  | some (k, _) =>
    let others := fun j => ChunkMap.inRange start stop j && j != k
    let blanked := b.chunks.modify others Chunk.blank
    let replace := fun c : Chunk => c.replace content options.storeName options.contentOnly
    { b with chunks := blanked.modify (· == k) replace }

/-- Blank the chunks of a range. -/
def blankRange (b : FiledBuffer) (start stop : Nat) : FiledBuffer :=
  { b with chunks := b.chunks.modify (ChunkMap.inRange start stop) Chunk.blank }

/-- Cut at `i` and go on, or be refused without a change. -/
def atSplit (b : FiledBuffer) (i : Nat) (next : FiledBuffer → Attempt FiledBuffer) :
    Attempt FiledBuffer :=
  match b.split i with
  | .ok b => next b
  | .error e => .refused b e

/-- Carry out an edit. -/
def apply (b : FiledBuffer) : Edit → Attempt FiledBuffer
  | .append content => .done { b with back := b.back ++ content }
  | .prepend content => .done { b with front := content ++ b.front }
  | .appendLeft i content => b.atSplit i fun b => .done (b.attachLeft i (· ++ content))
  | .prependLeft i content => b.atSplit i fun b => .done (b.attachLeft i (content ++ ·))
  | .appendRight i content => b.atSplit i fun b => .done (b.attachRight i (· ++ content))
  | .prependRight i content => b.atSplit i fun b => .done (b.attachRight i (content ++ ·))
  | .overwrite start stop content options =>
    match b.unfiled.checkRange start stop with
    | .error e => .refused b e
    | .ok () =>
      if start = stop then .refused b (.zeroLengthOverwrite start)
      else b.atSplit start fun b => b.atSplit stop fun b =>
        .done (b.replaceRange start stop content options)
  | .remove start stop =>
    match b.unfiled.checkRange start stop with
    | .error e => .refused b e
    | .ok () =>
      if start = stop then .done b
      else b.atSplit start fun b => b.atSplit stop fun b => .done (b.blankRange start stop)

/-- The buffer after a sequence of edits, accepted or refused. -/
def run (b : FiledBuffer) (edits : List Edit) : FiledBuffer :=
  edits.foldl (fun b e => (b.apply e).left) b

end FiledBuffer

section Filed
variable {cs : List Chunk} {k : Nat}

theorem filter_file_self (cs : List Chunk) (p : Nat → Bool) (h : ∀ c ∈ cs, p c.start = true) :
    (cs.map Chunk.file).filter (fun e => p e.1) = cs.map Chunk.file := by
  simpa [List.filter_eq_self] using h

theorem filter_file_nil (cs : List Chunk) (p : Nat → Bool) (h : ∀ c ∈ cs, p c.start = false) :
    (cs.map Chunk.file).filter (fun e => p e.1) = [] := by
  simpa [List.filter_eq_nil_iff] using h

theorem modify_file (p : Nat → Bool) (f : Chunk → Chunk) :
    ChunkMap.modify (cs.map Chunk.file) p f =
      cs.map fun c => (c.start, if p c.start then f c else c) := by
  simp only [ChunkMap.modify, List.map_map]
  refine List.map_congr_left fun c _ => ?_
  by_cases h : p c.start = true <;> simp [h, Chunk.file]

/-- What is filed at one key changes alone. -/
theorem modify_at {pre post : List Chunk} {c : Chunk} (front : ∀ d ∈ pre, d.start < c.start)
    (behind : ∀ d ∈ post, c.start < d.start) (f : Chunk → Chunk) :
    ChunkMap.modify ((pre ++ c :: post).map Chunk.file) (· == c.start) f =
      pre.map Chunk.file ++ (c.start, f c) :: post.map Chunk.file := by
  have other : ∀ ds : List Chunk, (∀ d ∈ ds, d.start ≠ c.start) →
      (ds.map fun d => (d.start, if d.start == c.start then f d else d)) = ds.map Chunk.file := by
    intro ds h
    refine List.map_congr_left fun d hd => ?_
    simp [h d hd, Chunk.file]
  rw [modify_file, List.map_append, List.map_cons, other pre, other post]
  · simp
  · exact fun d hd => Nat.ne_of_gt (behind d hd)
  · exact fun d hd => Nat.ne_of_lt (front d hd)

/-- A new key goes between the smaller and the greater ones. -/
theorem insert_at {pre post : List Chunk} (front : ∀ d ∈ pre, d.start < k)
    (behind : ∀ d ∈ post, k < d.start) (c : Chunk) :
    ChunkMap.insert ((pre ++ post).map Chunk.file) k c =
      pre.map Chunk.file ++ (k, c) :: post.map Chunk.file := by
  have below := filter_file_self pre (fun j => decide (j < k)) (by simpa using front)
  have below' := filter_file_nil post (fun j => decide (j < k))
    (by simpa using fun d hd => Nat.le_of_lt (behind d hd))
  have above := filter_file_nil pre (fun j => decide (k < j))
    (by simpa using fun d hd => Nat.le_of_lt (front d hd))
  have above' := filter_file_self post (fun j => decide (k < j)) (by simpa using behind)
  simp only [ChunkMap.insert, List.map_append, List.filter_append, below, below', above, above',
    List.append_nil, List.nil_append]

/-- The last entry before an offset. -/
theorem before?_at {pre post : List Chunk} {c : Chunk} (front : ∀ d ∈ pre, d.start < k)
    (own : c.start < k) (behind : ∀ d ∈ post, k < d.start) :
    ChunkMap.before? ((pre ++ c :: post).map Chunk.file) k = some c.file := by
  have below := filter_file_self pre (fun j => decide (j < k)) (by simpa using front)
  have below' := filter_file_nil post (fun j => decide (j < k))
    (by simpa using fun d hd => Nat.le_of_lt (behind d hd))
  simp [ChunkMap.before?, below, below', own]

/-- A chunk is filed again in two parts. -/
theorem file_parts {pre post : List Chunk} {c : Chunk} (front : ∀ d ∈ pre, d.start < c.start)
    (own : c.start < k) (behind : ∀ d ∈ post, k < d.start) :
    (ChunkMap.modify ((pre ++ c :: post).map Chunk.file) (· == c.start)
        fun _ => c.left k).insert k (c.right k) =
      ((pre ++ [c.left k]) ++ c.right k :: post).map Chunk.file := by
  have modified : ChunkMap.modify ((pre ++ c :: post).map Chunk.file) (· == c.start)
      (fun _ => c.left k) = ((pre ++ [c.left k]) ++ post).map Chunk.file := by
    rw [modify_at front fun d hd => Nat.lt_trans own (behind d hd)]
    simp [Chunk.file, Chunk.left]
  rw [modified, insert_at _ behind]
  · simp [Chunk.file, Chunk.right]
  · simp only [List.mem_append, List.mem_singleton]
    rintro d (hd | rfl)
    · exact Nat.lt_trans (front d hd) own
    · exact own

end Filed

end ComponentEdit
