import ComponentEdit.Proofs.Dialect.Astro
import ComponentEdit.Proofs.Markup.Attributes
import ComponentEdit.Proofs.Text.Search
import Mathlib.Data.List.Nodup

/-!
# Reading back a block of an Astro component

A script or style is written between fences or tags, and a parser that is told where the node sits
finds the block in it again. It takes the first `>` for the end of the opening tag, while attributes
are written with whatever they hold: the block that is found starts behind the first `>` of them
(`Markup.overhang`).
-/

namespace ComponentEdit
set_option autoImplicit false

namespace Markup

/-- What stands behind the first `>` of a tag with the given attributes, up to its end. -/
def overhang (attributes : Text) : Text := ((attributes ++ ['>']).dropWhile (· != '>')).tail

section Tag
variable {attributes gap rest : Text}

theorem overhang_append (absent : '>' ∉ gap) (split : attributes ++ ['>'] = gap ++ '>' :: rest) :
    overhang attributes = rest := by
  simp [overhang, split, List.dropWhile_append_of_pos (Text.forall_bne absent)]

/-- A tag ends for a parser with the first `>`, and the overhang stands behind it. -/
theorem exists_gap (attributes : Text) :
    ∃ gap, '>' ∉ gap ∧ attributes ++ ['>'] = gap ++ '>' :: overhang attributes := by
  obtain ⟨gap, rest, split, absent⟩ :=
    List.eq_append_cons_of_mem (List.mem_append_right attributes (List.mem_singleton_self '>'))
  exact ⟨gap, absent, by rw [overhang_append absent split, split]⟩

theorem overhang_eq_nil_iff : overhang attributes = [] ↔ '>' ∉ attributes := by
  constructor
  · intro nothing
    obtain ⟨gap, absent, split⟩ := exists_gap attributes
    rw [nothing] at split
    rwa [List.append_cancel_right split]
  · exact fun absent => overhang_append absent rfl

end Tag

end Markup

namespace Astro

/-- A tree in which nothing but a node, and what is below it, can be a block. -/
structure Node.Holds (root : Node) (path : List Nat) (n : Node) : Prop where
  here : root.at? path = some n
  others : ∀ path' m, root.at? path' = some m → ¬path <+: path' →
    m.kind ∈ [NodeKind.root, .text, .other]

/-- Whether a block is written between fences. -/
def isFenced (d : Descriptor) (role : Role) : Bool := role = .script && d.hasAttr "frontmatter"

/-- What stands between the fences of a block, or from behind its first `>` to its closing tag. -/
def enclosed (d : Descriptor) (role : Role) : Text :=
  (if isFenced d role then []
    else Markup.overhang (Markup.writeAttributes d.attrs ["setup", "scoped"])) ++
    '\n' :: (d.content.toList ++ ['\n'])

section Tree
variable {source : Text} {root n : Node} {path : List Nat} {role : Role} {range : Span}

theorem Node.block?_of_kind (h : n.kind ∈ [NodeKind.root, .text, .other]) :
    n.block? source = none := by
  simp only [List.mem_cons, List.not_mem_nil, or_false] at h
  cases ends : n.span? with
  | none => simp [block?, ends]
  | some span => rcases h with h | h | h <;> simp [block?, ends, h]

/-- The only block of a tree is found. -/
theorem Node.Holds.walk_eq (h : root.Holds path n) (block : n.block? source = some (role, range)) :
    root.walk source = [{ path, node := n, role, range }] := by
  have only : ∀ f, f ∈ root.walk source ↔ f ∈ [({ path, node := n, role, range } : Found)] := by
    intro f
    rw [mem_walk_iff, List.mem_singleton]
    constructor
    · -- What is found is at the node or below it, and below a block nothing is.
      rintro ⟨node, own, above⟩
      have below : path <+: f.path := by
        by_contra apart
        simp [block?_of_kind (h.others _ _ node apart)] at own
      have same : path = f.path := by
        by_contra ne
        simp [above path n below ne h.here] at block
      obtain ⟨path', m, role', range'⟩ := f
      subst same
      obtain rfl : n = m := Option.some.inj (h.here.symm.trans node)
      obtain ⟨rfl, rfl⟩ : role = role' ∧ range = range' := by simpa [block] using own
      rfl
    · rintro rfl
      refine ⟨h.here, block, fun path' m up ne there => block?_of_kind (h.others path' m there ?_)⟩
      exact fun down => ne (up.eq_of_length_le down.length_le)
  have nodup : (root.walk source).Nodup := (pairwise_path_walk source root).imp
    fun {f g} (apart : ¬f.path <+: g.path ∧ _) (same : f = g) => apart.1 (same ▸ List.prefix_refl _)
  exact List.perm_singleton.1 ((List.perm_ext_iff_of_nodup nodup (List.nodup_singleton _)).2 only)

end Tree

section Span
variable {before opening middle closing after : Text}

/-- What stands between the ends of a part of a text. -/
theorem exists_inner (before opening middle closing after : Text) :
    ∃ range, inner? ⟨Text.byteSize before, Text.byteSize before +
        Text.byteSize (opening ++ (middle ++ closing))⟩
        (Text.byteSize opening) (Text.byteSize closing) = some range ∧
      Text.slice? (before ++ ((opening ++ (middle ++ closing)) ++ after)) range.start range.stop =
        some middle := by
  refine ⟨⟨Text.byteSize (before ++ opening), Text.byteSize (before ++ opening) +
    Text.byteSize middle⟩, ?_, ?_⟩
  · rw [inner?_eq_some_iff]
    simp only [Text.byteSize_append, Span.mk.injEq, true_and]
    omega
  · have parts := Text.slice?_parts (before ++ opening) middle (closing ++ after)
    simpa only [List.append_assoc] using parts

/-- The opening tag of an element ends with its first `>`. -/
theorem openingLength?_tag {t gap rest : Text} (span : Span) (c : Char) (name : Text)
    (read : Text.slice? t span.start span.stop = some ((c :: name) ++ gap ++ ['>'] ++ rest))
    (named : '>' ∉ c :: name) (absent : '>' ∉ gap) :
    openingLength? t span (c :: name) = some (Text.byteSize ((c :: name) ++ gap ++ ['>'])) := by
  have start : Text.find? ((c :: name) ++ gap ++ ['>'] ++ rest) (c :: name) = some 0 := by
    refine Text.find?_eq_some_iff.2 ⟨by simp, (Text.firstAt_of_head ?_).2 rfl⟩
    simp only [List.append_assoc, List.prefix_append]
  have stop : Text.find? ((c :: name) ++ gap ++ ['>'] ++ rest) ['>'] =
      some (Text.byteSize ((c :: name) ++ gap)) := by
    rw [List.append_assoc _ ['>'] rest]
    refine Text.find?_eq_some_iff.2 ⟨by simp, Text.firstAt_char ?_ rest⟩
    rw [List.mem_append, not_or]
    exact ⟨named, absent⟩
  simp only [openingLength?, read, start, stop, Option.bind_eq_bind, Option.bind_some,
    Text.dropBytes_zero, Nat.zero_add]
  rw [Text.byteSize_append _ ['>']]
  rfl

end Span

section Writing
variable {d : Descriptor} {role : Role}

theorem writeBlock_fenced (h : isFenced d role = true) :
    writeBlock (some d) role = fence ++ (enclosed d role ++ fence) := by
  simp only [isFenced, Bool.and_eq_true, decide_eq_true_eq] at h
  obtain ⟨rfl, marked⟩ := h
  simp [writeBlock, enclosed, isFenced, marked]

/-- An opening tag is cut at its first `>`: what is behind that is enclosed with the content. -/
theorem exists_tag (h : isFenced d role = false) (hr : role ≠ .template) :
    ∃ gap, '>' ∉ gap ∧ writeBlock (some d) role =
      ('<' :: role.tagName.toList) ++ gap ++ ['>'] ++
        (enclosed d role ++ (['<', '/'] ++ role.tagName.toList ++ ['>'])) := by
  have named : role.tagName.toList ≠ [] := by cases role <;> decide
  have tag : writeBlock (some d) role = Markup.element role.tagName.toList
      [Markup.writeAttributes d.attrs ["setup", "scoped"]] d.content.toList := by
    simp only [isFenced] at h
    simp [writeBlock, hr, h]
  rw [tag]
  by_cases bare : Markup.writeAttributes d.attrs ["setup", "scoped"] = []
  · have nothing : Markup.overhang [] = [] := rfl
    refine ⟨[], by simp, ?_⟩
    simp [Markup.element, enclosed, h, bare, named, nothing]
  · obtain ⟨gap, absent, split⟩ :=
      Markup.exists_gap (Markup.writeAttributes d.attrs ["setup", "scoped"])
    refine ⟨' ' :: gap, by simpa using absent, ?_⟩
    have whole := congrArg (· ++ '\n' :: (d.content.toList ++
      '\n' :: '<' :: '/' :: (role.tagName.toList ++ ['>']))) split
    simpa [Markup.element, enclosed, h, bare, named] using whole

/-- The content of an element that was written, as it is found between its tags. -/
theorem elementInner?_written (h : isFenced d role = false)
    (located : role = .script ∨ role = .style) (before after : Text) : ∃ range,
      elementInner? (before ++ (writeBlock (some d) role ++ after)) ⟨Text.byteSize before,
        Text.byteSize before + Text.byteSize (writeBlock (some d) role)⟩ role.tagName = some range ∧
      Text.slice? (before ++ (writeBlock (some d) role ++ after)) range.start range.stop =
        some (enclosed d role) := by
  have notTemplate : role ≠ .template := by
    rintro rfl
    simp at located
  have named : '>' ∉ '<' :: role.tagName.toList := by rcases located with rfl | rfl <;> decide
  have size :
      Text.byteSize (['<', '/'] ++ role.tagName.toList ++ ['>']) = role.tagName.length + 3 := by
    rcases located with rfl | rfl <;> decide
  obtain ⟨gap, absent, written⟩ := exists_tag h notTemplate
  obtain ⟨range, inner, read⟩ := exists_inner before
    (('<' :: role.tagName.toList) ++ gap ++ ['>']) (enclosed d role)
    (['<', '/'] ++ role.tagName.toList ++ ['>']) after
  rw [← written] at inner read
  refine ⟨range, ?_, read⟩
  have target := Text.slice?_parts before (writeBlock (some d) role) after
  have opening := openingLength?_tag ⟨Text.byteSize before, _⟩ '<' role.tagName.toList
    (target.trans (congrArg some written)) named absent
  rw [elementInner?, opening, Option.bind_eq_bind, Option.bind_some, ← size, inner]

/-- The block that a written block is for a parser that is told where it stands. -/
theorem Node.block?_written {n : Node} {before : Text} (after : Text)
    (located : role = .script ∨ role = .style)
    (span : n.span? = some ⟨Text.byteSize before,
      Text.byteSize before + Text.byteSize (writeBlock (some d) role)⟩)
    (form : if isFenced d role then n.kind = .frontmatter
      else n.kind = .element ∧ n.name = role.tagName) :
    ∃ range, n.block? (before ++ (writeBlock (some d) role ++ after)) = some (role, range) ∧
      Text.slice? (before ++ (writeBlock (some d) role ++ after)) range.start range.stop =
        some (enclosed d role) := by
  cases fenced : isFenced d role with
  | true =>
    rw [if_pos fenced] at form
    rw [writeBlock_fenced fenced] at span ⊢
    obtain ⟨range, inner, read⟩ := exists_inner before fence (enclosed d role) fence after
    refine ⟨range, ?_, read⟩
    obtain ⟨rfl, -⟩ : role = .script ∧ d.hasAttr "frontmatter" = true := by
      simpa [isFenced] using fenced
    rw [block?, span, Option.bind_eq_bind, Option.bind_some, form]
    exact Option.bind_eq_some_iff.2 ⟨range, inner, rfl⟩
  | false =>
    rw [if_neg (by simp [fenced])] at form
    obtain ⟨range, found, read⟩ := elementInner?_written fenced located before after
    refine ⟨range, ?_, read⟩
    rw [block?, span, Option.bind_eq_bind, Option.bind_some, form.1, form.2]
    rcases located with rfl | rfl
    · exact Option.bind_eq_some_iff.2 ⟨range, found, rfl⟩
    · exact Option.bind_eq_some_iff.2 ⟨range, found, rfl⟩

/-- A block is found as it was written where no `>` is in its tag in front of the last. -/
theorem enclosed_eq_iff : enclosed d role = '\n' :: (d.content.toList ++ ['\n']) ↔
    isFenced d role = true ∨
      ∀ f ∈ d.attrs, f.1 ∉ ["setup", "scoped"] → '>' ∉ Markup.writeAttribute f.1 f.2 := by
  cases fenced : isFenced d role with
  | true => simp [enclosed, fenced]
  | false =>
    rw [enclosed, if_neg (by simp [fenced]), List.append_left_eq_self, Markup.overhang_eq_nil_iff,
      Markup.mem_writeAttributes_iff (by decide)]
    simp

end Writing

end Astro

/-- **A block that was written is read back**, whatever is in front of it and behind it and whatever
it holds: a parser that is told where its node stands reports it and nothing else. It finds the
content on lines of its own if no attribute holds a `>`, and only then; else the rest of the tag
behind the first `>` comes in front of it. -/
theorem astro_block_read_back (compile : Text → Except Error (Option Astro.Node)) (d : Descriptor)
    (role : Role) (located : role = .script ∨ role = .style) (before after : Text)
    (root n : Astro.Node) (path : List Nat)
    (compiled : compile (before ++ (Astro.writeBlock (some d) role ++ after)) = .ok (some root))
    (holds : root.Holds path n)
    (span : n.span? = some ⟨Text.byteSize before,
      Text.byteSize before + Text.byteSize (Astro.writeBlock (some d) role)⟩)
    (form : if Astro.isFenced d role then n.kind = .frontmatter
      else n.kind = .element ∧ n.name = role.tagName) :
    let source := before ++ (Astro.writeBlock (some d) role ++ after)
    (∃ b range, Astro.parser compile source = .ok (some [b]) ∧ b.role = role ∧
      b.span = some range ∧
      Text.slice? source range.start range.stop = some (Astro.enclosed d role) ∧
      b.descriptor.content.toList = Astro.enclosed d role) ∧
    (Astro.enclosed d role = '\n' :: (d.content.toList ++ ['\n']) ↔
      Astro.isFenced d role = true ∨
        ∀ f ∈ d.attrs, f.1 ∉ ["setup", "scoped"] → '>' ∉ Markup.writeAttribute f.1 f.2) := by
  intro source
  obtain ⟨range, block, read⟩ := Astro.Node.block?_written after located span form
  let found : Astro.Found := { path, node := n, role, range }
  refine ⟨⟨found.block source, range, ?_, rfl, rfl, read, ?_⟩, Astro.enclosed_eq_iff⟩
  · rw [Astro.parser, compiled]
    show Except.ok (some (root.blocks source)) = _
    rw [Astro.Node.blocks_eq_walk, holds.walk_eq block]
    rfl
  · show (String.ofList ((Text.slice? source range.start range.stop).getD [])).toList = _
    rw [read, Option.getD_some, String.toList_ofList]

/-- A script whose attribute holds a `>`, between two other nodes. -/
theorem script_found_behind_type_argument :
    let d : Descriptor := { attrs := [("generics", .string "A<B>")], content := "x" }
    let source := "ü <script generics=\"A<B>\">\nx\n</script>!".toList
    let n : Astro.Node := Astro.Node.withSpan { kind := .element, name := "script" } ⟨3, 39⟩
    let root : Astro.Node :=
      { kind := .root, children := [{ kind := .text }, n, { kind := .text }] }
    source = "ü ".toList ++ (Astro.writeBlock (some d) .script ++ "!".toList) ∧ root.Holds [1] n ∧
      (∃ b range, Astro.parser (fun _ => .ok (some root)) source = .ok (some [b]) ∧
        b.span = some range ∧
        Text.slice? source range.start range.stop = some "\">\nx\n".toList) ∧
      Astro.enclosed d .script ≠ "\nx\n".toList := by
  intro d source n root
  have written : source = "ü ".toList ++ (Astro.writeBlock (some d) .script ++ "!".toList) := by
    decide
  have holds : root.Holds [1] n := by
    refine ⟨rfl, fun path m there apart => ?_⟩
    match path with
    | [] =>
      obtain rfl : root = m := Option.some.inj there
      decide
    | [0] | [2] =>
      obtain rfl : { kind := .text } = m := Option.some.inj there
      decide
    | 0 :: _ :: _ | 2 :: _ :: _ | (_ + 3) :: _ => cases there
    | 1 :: path => exact absurd (List.prefix_append [1] path) apart
  obtain ⟨⟨b, range, parsed, -, reported, read, -⟩, -⟩ :=
    astro_block_read_back (fun _ => .ok (some root)) d .script (.inl rfl) "ü ".toList "!".toList
      root n [1] rfl holds (by decide) (by decide)
  rw [← written] at parsed read
  have shown : Astro.enclosed d .script = "\">\nx\n".toList := by decide
  exact ⟨written, holds, ⟨b, range, parsed, reported, read.trans (congrArg some shown)⟩, by decide⟩

end ComponentEdit
