import ComponentEdit.Dialect.Astro

/-!
# The blocks of an Astro component do not overlap

`Node.walk` goes through a tree as `Node.blocks` does and keeps for every block where in the tree it
comes from. A node is found by it if it is a block and no node above it is one (`mem_walk_iff`), so
of two nodes that are found neither is above the other: they are in the trees of two siblings.
When the spans in the trees of siblings follow each other, so do the ranges of the blocks, since
each range is a part of the span of its node (`Node.block?_part`).
-/

namespace ComponentEdit
set_option autoImplicit false

/-- The second span is a part of the first. -/
def Span.Covers (outer inner : Span) : Prop :=
  outer.start ≤ inner.start ∧ inner.stop ≤ outer.stop

namespace Astro

section Ranges
variable {source : Text} {span range : Span} {n : Node} {role : Role} {opening closing : Nat}

theorem inner?_eq_some_iff : inner? span opening closing = some range ↔
    (closing ≤ span.stop ∧ span.start + opening ≤ span.stop - closing) ∧
      ⟨span.start + opening, span.stop - closing⟩ = range := by
  rw [inner?, Option.ite_none_right_eq_some, Bool.and_eq_true, decide_eq_true_eq,
    decide_eq_true_eq, Option.some.injEq]

/-- What remains of a span without its ends is a part of it. -/
theorem inner?_part (h : inner? span opening closing = some range) :
    span.Covers range ∧ range.start ≤ range.stop := by
  obtain ⟨⟨-, le⟩, rfl⟩ := inner?_eq_some_iff.1 h
  exact ⟨⟨Nat.le_add_right _ _, Nat.sub_le _ _⟩, le⟩

theorem elementInner?_part {name : String} (h : elementInner? source span name = some range) :
    span.Covers range ∧ range.start ≤ range.stop := by
  obtain ⟨opening, -, inner⟩ := Option.bind_eq_some_iff.1 h
  exact inner?_part inner

/-- A range that was found under a role. -/
theorem eq_some_of_labelled {found : Option Span} {label : Role}
    (h : (found.bind fun s => some (label, s)) = some (role, range)) : found = some range := by
  obtain ⟨_, rfl, same⟩ := Option.bind_eq_some_iff.1 h
  rw [(Prod.mk.inj (Option.some.inj same)).2]

/-- The range of a block is the span of its node, or what remains of it without its ends. -/
theorem Node.block?_part (h : n.block? source = some (role, range)) :
    ∃ span, n.span? = some span ∧ span.Covers range ∧
      (span.start ≤ span.stop → range.start ≤ range.stop) := by
  obtain ⟨span, ends, h⟩ := Option.bind_eq_some_iff.1 h
  refine ⟨span, ends, ?_⟩
  have part : (span.Covers range ∧ range.start ≤ range.stop) ∨ span = range := by
    split at h
    case h_1 => exact .inl (inner?_part (eq_some_of_labelled h))
    case h_2 =>
      split at h
      · exact .inl (elementInner?_part (eq_some_of_labelled h))
      · split at h
        · exact .inl (elementInner?_part (eq_some_of_labelled h))
        · exact .inr (Prod.mk.inj (Option.some.inj h)).2
    case h_3 => exact .inr (Prod.mk.inj (Option.some.inj h)).2
    case h_4 => cases h
  rcases part with ⟨covers, le⟩ | rfl
  · exact ⟨covers, fun _ => le⟩
  · exact ⟨⟨Nat.le_refl _, Nat.le_refl _⟩, id⟩

end Ranges

namespace Node

/-- What holds for a node if it holds for its children holds for all nodes. -/
theorem byChildren {P : Node → Prop} (step : ∀ n, (∀ c ∈ n.children, P c) → P n) (n : Node) :
    P n := by
  refine step n fun c hc => byChildren step c
termination_by sizeOf n
decreasing_by
  have := List.sizeOf_lt_of_mem hc
  cases n
  simp at this ⊢
  omega

/-- The node that is reached from a node by going down to the children of the given numbers. -/
def at? : Node → List Nat → Option Node
  | n, [] => some n
  | n, i :: path => n.children[i]?.bind (·.at? path)

mutual

/-- All spans of a tree. -/
def spans : Node → List Span
  | ⟨kind, name, extent, attributes, children⟩ =>
    (span? ⟨kind, name, extent, attributes, children⟩).toList ++ spansOfAll children

/-- All spans of a row of trees. -/
def spansOfAll : List Node → List Span
  | [] => []
  | n :: ns => n.spans ++ spansOfAll ns

end

/-- In a tree in order spans do not stop before they start, and all spans in the tree of a node stop
before those in the tree of a later sibling start. -/
inductive InOrder : Node → Prop where
  | node {n : Node} (proper : ∀ s ∈ n.span?, s.start ≤ s.stop)
      (row : n.children.Pairwise fun a b => ∀ s ∈ a.spans, ∀ s' ∈ b.spans, s.stop ≤ s'.start)
      (children : ∀ c ∈ n.children, InOrder c) : InOrder n

end Node

/-- A block that was found in a tree. -/
structure Found where
  /-- The way down to the node that it comes from. -/
  path : List Nat
  node : Node
  role : Role
  range : Span

namespace Found

/-- What was found in the tree of a child, as found from its parent. -/
def under (i : Nat) (f : Found) : Found := { f with path := i :: f.path }

/-- The block that is reported. -/
def block (source : Text) (f : Found) : ParsedBlock :=
  { role := f.role, descriptor := f.node.descriptor source f.range, span := some f.range }

/-- It comes from a node of a tree that is a block and is not below another one. -/
structure From (source : Text) (root : Node) (f : Found) : Prop where
  node : root.at? f.path = some f.node
  block : f.node.block? source = some (f.role, f.range)
  above : ∀ path n, path <+: f.path → path ≠ f.path → root.at? path = some n →
    n.block? source = none

end Found

mutual

/-- The blocks that are found in a tree. -/
def Node.walk (source : Text) : Node → List Found
  | ⟨kind, name, extent, attributes, children⟩ =>
    let n : Node := ⟨kind, name, extent, attributes, children⟩
    match n.block? source with
    | some (role, range) => [{ path := [], node := n, role, range }]
    | none => walkAll source 0 children

/-- The blocks that are found in a row of trees, the first of which has the number `i`. -/
def walkAll (source : Text) (i : Nat) : List Node → List Found
  | [] => []
  | n :: ns => (n.walk source).map (.under i) ++ walkAll source (i + 1) ns

end

section Walk
variable {source : Text} {n c : Node} {ns : List Node} {i : Nat} {f : Found} {role : Role}
  {range : Span}

theorem Node.walk_of_block (h : n.block? source = some (role, range)) :
    n.walk source = [{ path := [], node := n, role, range }] := by
  cases n
  simp only [walk, h]

theorem Node.walk_of_no_block (h : n.block? source = none) :
    n.walk source = walkAll source 0 n.children := by
  cases n
  simp only [walk, h]

theorem mem_walkAll_iff : f ∈ walkAll source i ns ↔ ∃ (j : Nat) (c : Node),
    ns[j]? = some c ∧ ∃ g ∈ c.walk source, f = g.under (i + j) := by
  induction ns generalizing i with
  | nil => simp [walkAll]
  | cons n ns ih =>
    rw [walkAll, List.mem_append, List.mem_map, ih]
    constructor
    · rintro (⟨g, hg, rfl⟩ | ⟨j, c, hc, g, hg, rfl⟩)
      · exact ⟨0, n, rfl, g, hg, rfl⟩
      · exact ⟨j + 1, c, hc, g, hg, by rw [Nat.add_assoc, Nat.add_comm 1]⟩
    · rintro ⟨_ | j, c, hc, g, hg, rfl⟩
      · obtain rfl : n = c := by simpa using hc
        exact .inl ⟨g, hg, rfl⟩
      · exact .inr ⟨j, c, hc, g, hg, by rw [Nat.add_assoc, Nat.add_comm 1]⟩

/-- Below a node that is no block it makes no difference whether a tree is seen from there. -/
theorem Found.from_under_iff (hc : n.children[i]? = some c) (free : n.block? source = none) :
    (f.under i).From source n ↔ f.From source c := by
  have down : ∀ path, n.at? (i :: path) = c.at? path := fun path => by
    rw [Node.at?, hc, Option.bind_some]
  constructor
  · rintro ⟨node, block, above⟩
    refine ⟨(down f.path).symm.trans node, block, fun path m up ne here => ?_⟩
    exact above (i :: path) m (List.cons_prefix_cons.2 ⟨rfl, up⟩) (by simpa [under] using ne)
      ((down path).trans here)
  · rintro ⟨node, block, above⟩
    refine ⟨(down f.path).trans node, block, fun path m up ne here => ?_⟩
    cases path with
    | nil =>
      obtain rfl : n = m := Option.some.inj here
      exact free
    | cons j path =>
      rw [under, List.cons_prefix_cons] at up
      obtain ⟨rfl, up⟩ := up
      exact above path m up (fun same => ne (by rw [same, under])) ((down path).symm.trans here)

/-- The walk finds all nodes that are blocks and have none above them, and no others. -/
theorem mem_walk_iff : f ∈ n.walk source ↔ f.From source n := by
  induction n using Node.byChildren generalizing f with
  | step n ih =>
    cases block : n.block? source with
    | some found =>
      obtain ⟨role, range⟩ := found
      rw [Node.walk_of_block block, List.mem_singleton]
      constructor
      · rintro rfl
        exact ⟨rfl, block, fun path m up ne => absurd (List.prefix_nil.1 up) ne⟩
      · rintro ⟨node, own, above⟩
        obtain ⟨path, m, role', range'⟩ := f
        cases path with
        | cons i path => simp [above [] n (List.nil_prefix ..) (by simp) rfl] at block
        | nil =>
          obtain rfl : n = m := Option.some.inj node
          obtain ⟨rfl, rfl⟩ : role = role' ∧ range = range' := by simpa [block] using own
          rfl
    | none =>
      rw [Node.walk_of_no_block block, mem_walkAll_iff]
      constructor
      · rintro ⟨j, c, hc, g, hg, rfl⟩
        rw [Nat.zero_add, Found.from_under_iff hc block]
        exact (ih c (List.mem_of_getElem? hc)).1 hg
      · intro here
        obtain ⟨path, m, role, range⟩ := f
        cases path with
        | nil =>
          obtain rfl : n = m := Option.some.inj here.node
          simp [here.block] at block
        | cons j path =>
          obtain ⟨c, hc, -⟩ := Option.bind_eq_some_iff.1 here.node
          refine ⟨j, c, hc, ⟨path, m, role, range⟩, ?_, by rw [Nat.zero_add]; rfl⟩
          exact (ih c (List.mem_of_getElem? hc)).2 ((Found.from_under_iff hc block).1 here)

theorem blocksOfAll_eq_walkAll
    (each : ∀ c ∈ ns, c.blocks source = (c.walk source).map (·.block source)) :
    blocksOfAll source ns = (walkAll source i ns).map (·.block source) := by
  induction ns generalizing i with
  | nil => rfl
  | cons n ns ih =>
    rw [List.forall_mem_cons] at each
    rw [blocksOfAll, walkAll, List.map_append, List.map_map, each.1, ih each.2]
    rfl

/-- The walk finds what is reported. -/
theorem Node.blocks_eq_walk (source : Text) (n : Node) :
    n.blocks source = (n.walk source).map (·.block source) := by
  induction n using Node.byChildren with
  | step n ih =>
    cases block : n.block? source with
    | some found =>
      rw [walk_of_block block]
      cases n
      simp only [blocks, block]
      rfl
    | none =>
      rw [walk_of_no_block block, ← blocksOfAll_eq_walkAll ih]
      cases n
      simp only [blocks, block]

end Walk

section Order
variable {source : Text} {n m : Node} {ns : List Node} {i : Nat} {path : List Nat} {s : Span}

theorem Node.mem_spansOfAll {c : Node} (hc : c ∈ ns) (hs : s ∈ c.spans) : s ∈ spansOfAll ns := by
  induction ns with
  | nil => cases hc
  | cons n ns ih =>
    rw [spansOfAll, List.mem_append]
    rcases List.mem_cons.1 hc with rfl | hc
    · exact .inl hs
    · exact .inr (ih hc)

/-- The span of every node of a tree is one of the spans of the tree. -/
theorem Node.mem_spans (here : n.at? path = some m) (hs : m.span? = some s) : s ∈ n.spans := by
  induction path generalizing n with
  | nil =>
    obtain rfl : n = m := Option.some.inj here
    cases n
    rw [spans, List.mem_append, hs]
    exact .inl (by simp)
  | cons i path ih =>
    obtain ⟨c, hc, below⟩ := Option.bind_eq_some_iff.1 here
    have mem := mem_spansOfAll (List.mem_of_getElem? hc) (ih below)
    cases n
    rw [spans, List.mem_append]
    exact .inr mem

/-- The trees inside of a tree in order are in order. -/
theorem Node.InOrder.at? (h : n.InOrder) (here : n.at? path = some m) : m.InOrder := by
  induction path generalizing n with
  | nil =>
    obtain rfl : n = m := Option.some.inj here
    exact h
  | cons i path ih =>
    obtain ⟨c, hc, below⟩ := Option.bind_eq_some_iff.1 here
    obtain ⟨-, -, children⟩ := h
    exact ih (children c (List.mem_of_getElem? hc)) below

/-- A relation holds along a walk if it does in each of the trees of a row and from tree to tree. -/
theorem pairwise_walkAll {R : Found → Found → Prop}
    (each : ∀ c ∈ ns, ∀ j, ((c.walk source).map (.under j)).Pairwise R)
    (across : ns.Pairwise fun a b => ∀ j k, j < k → ∀ f ∈ a.walk source, ∀ g ∈ b.walk source,
      R (f.under j) (g.under k)) :
    (walkAll source i ns).Pairwise R := by
  induction ns generalizing i with
  | nil => exact .nil
  | cons n ns ih =>
    rw [List.forall_mem_cons] at each
    rw [List.pairwise_cons] at across
    rw [walkAll, List.pairwise_append]
    refine ⟨each.1 i, ih each.2 across.2, fun f hf g hg => ?_⟩
    obtain ⟨f, mem, rfl⟩ := List.mem_map.1 hf
    obtain ⟨j, c, hc, g, mem', rfl⟩ := mem_walkAll_iff.1 hg
    exact across.1 c (List.mem_of_getElem? hc) i (i + 1 + j) (by omega) f mem g mem'

/-- Of two nodes that are found neither is above the other. -/
theorem pairwise_path_walk (source : Text) (n : Node) : (n.walk source).Pairwise fun f g =>
    ¬f.path <+: g.path ∧ ¬g.path <+: f.path := by
  induction n using Node.byChildren with
  | step n ih =>
    cases block : n.block? source with
    | some found =>
      rw [Node.walk_of_block block]
      exact List.pairwise_singleton ..
    | none =>
      rw [Node.walk_of_no_block block]
      refine pairwise_walkAll (fun c hc j => List.pairwise_map.2 ?_) (List.pairwise_of_forall ?_)
      · refine (ih c hc).imp fun apart => ?_
        simpa [Found.under, List.cons_prefix_cons] using apart
      · intro a b j k lt f _ g _
        simp [Found.under, List.cons_prefix_cons, Nat.ne_of_lt lt, Nat.ne_of_gt lt]

/-- In a tree in order, the ranges that are found follow each other. -/
theorem Node.InOrder.pairwise_range_walk (h : n.InOrder) :
    (n.walk source).Pairwise (·.range.stop ≤ ·.range.start) := by
  induction h with
  | @node n proper row children ih =>
    cases block : n.block? source with
    | some found =>
      rw [walk_of_block block]
      exact List.pairwise_singleton ..
    | none =>
      rw [walk_of_no_block block]
      refine pairwise_walkAll (fun c hc j => List.pairwise_map.2 (ih c hc)) ?_
      refine row.imp fun {a b} follows j k _ f hf g hg => ?_
      have hf := mem_walk_iff.1 hf
      have hg := mem_walk_iff.1 hg
      obtain ⟨s, ends, covers, -⟩ := block?_part hf.block
      obtain ⟨s', ends', covers', -⟩ := block?_part hg.block
      calc f.range.stop ≤ s.stop := covers.2
        _ ≤ s'.start := follows s (mem_spans hf.node ends) s' (mem_spans hg.node ends')
        _ ≤ g.range.start := covers'.1

end Order

end Astro

/-- **The blocks of an Astro component do not overlap.** The blocks that are reported come from the
nodes that are blocks and have no block above them, and from all of these. Each range is a part of
the span of its node, and of two such nodes neither is above the other. When no span stops before it
starts, and all spans in the tree of a node stop before those in the tree of a later sibling start,
then every range stops before the next one starts. It does not matter for this whether the spans of
children are parts of those of their parents. -/
theorem astro_blocks_follow_each_other (compile : Text → Except Error (Option Astro.Node))
    (source : Text) (root : Astro.Node) (compiled : compile source = .ok (some root))
    (inOrder : root.InOrder) :
    let found := root.walk source
    Astro.parser compile source = .ok (some (found.map (·.block source))) ∧
      (∀ f, f ∈ found ↔ f.From source root) ∧
      (∀ f ∈ found, f.range.start ≤ f.range.stop ∧
        ∃ span, f.node.span? = some span ∧ span.Covers f.range) ∧
      (found.Pairwise fun f g => ¬f.path <+: g.path ∧ ¬g.path <+: f.path) ∧
      found.Pairwise fun f g => f.range.stop ≤ g.range.start := by
  intro found
  refine ⟨?_, fun f => Astro.mem_walk_iff, fun f hf => ?_, Astro.pairwise_path_walk source root,
    inOrder.pairwise_range_walk⟩
  · rw [Astro.parser, compiled, ← Astro.Node.blocks_eq_walk]
    rfl
  · have origin := Astro.mem_walk_iff.1 hf
    obtain ⟨span, ends, covers, proper⟩ := Astro.Node.block?_part origin.block
    obtain ⟨ordered, -, -⟩ := inOrder.at? origin.node
    exact ⟨proper (ordered span ends), span, ends, covers⟩

/-- A tree with a node without a span and with a script whose tag is not there. Both are entered,
and what is in them is found at its place among the others. -/
theorem blocks_below_malformed_script :
    let source := "---\nlet a\n---\n<main><p>hi</p></main><b/><style>p \x7b\x7d</style>".toList
    let root : Astro.Node :=
      { kind := .root
        children := [
          Astro.Node.withSpan { kind := .frontmatter } ⟨0, 13⟩,
          { kind := .other
            children := [Astro.Node.withSpan
              { kind := .element, name := "main"
                children := [Astro.Node.withSpan { kind := .element, name := "p" } ⟨20, 29⟩] }
              ⟨14, 36⟩] },
          Astro.Node.withSpan
            { kind := .element, name := "script"
              children := [Astro.Node.withSpan { kind := .component, name := "b" } ⟨36, 40⟩] }
            ⟨36, 40⟩,
          Astro.Node.withSpan { kind := .element, name := "style" } ⟨40, 59⟩] }
    root.InOrder ∧
      (root.walk source).map (·.path) = [[0], [1, 0], [2, 0], [3]] ∧
      (root.walk source).map (·.range) = [⟨3, 10⟩, ⟨14, 36⟩, ⟨36, 40⟩, ⟨47, 51⟩] ∧
      Astro.parser (fun _ => .ok (some root)) source =
        .ok (some ((root.walk source).map (·.block source))) ∧
      (root.walk source).Pairwise fun f g => f.range.stop ≤ g.range.start := by
  intro source root
  have leaf : ∀ n : Astro.Node, n.children = [] → (∀ s ∈ n.span?, s.start ≤ s.stop) →
      n.InOrder := fun n none proper => .node proper (by simp [none]) (by simp [none])
  have inOrder : root.InOrder := by
    refine .node (by decide) (by decide) ?_
    show ∀ c ∈ [_, _, _, _], Astro.Node.InOrder c
    simp only [List.forall_mem_cons, List.not_mem_nil, false_imp_iff, implies_true, and_true]
    refine ⟨leaf _ rfl (by decide), ?entered, ?malformed, leaf _ rfl (by decide)⟩
    case entered =>
      refine .node (by decide) (by decide) (List.forall_mem_singleton.2 ?_)
      exact .node (by decide) (by decide) (List.forall_mem_singleton.2 (leaf _ rfl (by decide)))
    case malformed =>
      exact .node (by decide) (by decide) (List.forall_mem_singleton.2 (leaf _ rfl (by decide)))
  have follows := astro_blocks_follow_each_other (fun _ => .ok (some root)) source root rfl inOrder
  exact ⟨inOrder, by decide, by decide, follows.1, follows.2.2.2.2⟩

end ComponentEdit
