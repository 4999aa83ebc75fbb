import Dofile.Proofs.Programs
import Dofile.Proofs.Refusal
import Dofile.Proofs.Shape
import Dofile.Proofs.Sizes

/-!
# Finding the way in a store

The arrays of a store say some things twice: a node names its children and its leaves, its
children and leaves name it, and all of them have spans. In what a writer makes these agree, and
the walk from the root comes by the calls that were written. What a writer makes of the tree of
a text is its store, as long as the rules can log the text.
-/

namespace Dofile

namespace Store

open Builder (Call)

def call? (s : Store) : Visit → Option Call
  | .enter node => (s.kind? (.node node)).map .enter
  | .leaf leaf => do return .leaf (← s.kind? (.leaf leaf)) (byteSize (← s.text? (.leaf leaf)))
  | .leave _ => some .leave

/-- What the records of a store owe to each other. -/
structure Consistent (s : Store) : Prop where
  tiles : Tiles 0 (s.leaves.toList.map LeafRecord.span) (byteSize s.text)
  texts : ∀ leaf < s.leaves.size, (s.text? (.leaf leaf)).isSome
  leaves : ∀ node < s.nodes.size, ∃ visits, Walk.Yields s (.ofNode node) visits ∧
    s.leavesOf node = visits.filterMap Visit.leaf?
  start : ∀ node leaf, s.firstLeaf? node = some leaf →
    (s.span? (.node node)).map Span.start = (s.span? (.leaf leaf)).map Span.start
  stop : ∀ node leaf, s.lastLeaf? node = some leaf →
    (s.span? (.node node)).map Span.stop = (s.span? (.leaf leaf)).map Span.stop
  empty : ∀ node span, s.leavesOf node = [] → s.span? (.node node) = some span → span.start = span.stop
  root : ∀ node < s.nodes.size, s.parent? (.node node) = none → node = 0
  child : ∀ r parent index, s.parent? r = some parent → s.index? r = some index → s.childAt? parent index = some r
  right_left : ∀ leaf other, s.right? leaf = some (.leaf other) → s.left? other = some (.leaf leaf)
  left_right : ∀ leaf other, s.left? leaf = some (.leaf other) → s.right? other = some (.leaf leaf)

section
variable {t : Tree} {p : Place}

theorem exists_node {node : Nat} (h : node < (ofTree t).nodes.size) :
    ∃ p ∈ (Place.ofRoot t).nodes, p.nodesBefore = node := by
  obtain ⟨p, hp, hnode, -⟩ := exists_of_node (Array.getElem?_eq_getElem h)
  exact ⟨p, hp, hnode⟩

theorem exists_leaf {leaf : Nat} (h : leaf < (ofTree t).leaves.size) :
    ∃ p ∈ (Place.ofRoot t).leaves, p.leavesBefore = leaf := by
  obtain ⟨p, hp, hleaf, -⟩ := exists_of_leaf (Array.getElem?_eq_getElem h)
  exact ⟨p, hp, hleaf⟩

theorem exists_element {r : Ref} {index : Nat} (h : (ofTree t).index? r = some index) :
    ∃ p ∈ (Place.ofRoot t).elements, p.ref = r := by
  cases r with
  | node node =>
    obtain ⟨record, hrecord, -⟩ := Option.map_eq_some_iff.mp h
    obtain ⟨p, hp, rfl, -⟩ := exists_of_node hrecord
    obtain ⟨hp, hnode⟩ := Place.mem_nodes_iff.mp hp
    exact ⟨p, hp, Place.ref_node hnode⟩
  | leaf leaf =>
    obtain ⟨record, hrecord, -⟩ := Option.map_eq_some_iff.mp h
    obtain ⟨p, hp, rfl, -⟩ := exists_of_leaf hrecord
    obtain ⟨hp, hleaf⟩ := Place.mem_leaves_iff.mp hp
    exact ⟨p, hp, Place.ref_leaf hleaf⟩

theorem childAt_parent (h : p ∈ (Place.ofRoot t).elements) {parent : Nat} (hparent : p.parentNumber? = some parent) :
    (ofTree t).childAt? parent p.index = some p.ref := by
  rcases Place.eq_or_child h with rfl | ⟨q, hq, i, hi⟩
  · cases hparent
  · rw [parentNumber_of_child hi] at hparent
    cases hparent
    rw [childAt_ofTree hq, (Place.parent_of_child hi).2, hi]
    rfl

theorem filterMap_leaf_stored (visits : List Dofile.Visit) :
    (visits.map Visit.stored).filterMap Visit.leaf? = (visits.filterMap Dofile.Visit.leaf?).map Place.leavesBefore := by
  induction visits with
  | nil => rfl
  | cons v visits ih =>
    cases v <;> simp [List.filterMap_cons, Visit.stored, Visit.leaf?, Dofile.Visit.leaf?, ih]

theorem map_leavesBefore_ofTree (t : Tree) :
    (Place.ofRoot t).leaves.map Place.leavesBefore = List.range (ofTree t).leaves.size := by
  rw [Place.map_leavesBefore_leaves, size_leaves, List.range_eq_range']
  rfl

/-- A walk of the store shows what the walk of the tree does. -/
theorem call_stored (ht : t.isLeaf = false) {v : Dofile.Visit} (h : v ∈ (Place.ofRoot t).walk) :
    (ofTree t).call? v.stored = some v.call := by
  cases v with
  | enter p =>
    obtain ⟨hp, hnode⟩ := Place.mem_nodes_iff.mp (List.mem_filterMap.mpr ⟨_, h, rfl⟩ : p ∈ (Place.ofRoot t).nodes)
    have hkind := (mirrors_ofTree ht hp).kind
    rw [Place.ref_node hnode] at hkind
    simp [Visit.stored, call?, hkind, Visit.call]
  | leaf p =>
    obtain ⟨hp, hleaf⟩ := Place.mem_leaves_iff.mp (List.mem_filterMap.mpr ⟨_, h, rfl⟩ : p ∈ (Place.ofRoot t).leaves)
    have hkind := (mirrors_ofTree ht hp).kind
    have htext := (mirrors_ofTree ht hp).text
    rw [Place.ref_leaf hleaf] at hkind htext
    simp [Visit.stored, call?, hkind, htext, Visit.call, Place.text, Tree.size_eq_byteSize]
  | leave p => rfl

theorem exists_of_mem_leavesOf {node leaf : Nat} (h : leaf ∈ (ofTree t).leavesOf node) :
    ∃ p ∈ (Place.ofRoot t).nodes, p.nodesBefore = node := by
  by_cases hnode : node < (ofTree t).nodes.size
  · exact exists_node hnode
  · simp [leavesOf, Array.getElem?_eq_none (Nat.not_lt.mp hnode)] at h

theorem span_node (ht : t.isLeaf = false) (h : p ∈ (Place.ofRoot t).nodes) :
    (ofTree t).span? (.node p.nodesBefore) = some p.span := by
  obtain ⟨hp, hnode⟩ := Place.mem_nodes_iff.mp h
  rw [← Place.ref_node hnode, (mirrors_ofTree ht hp).span]

theorem span_leaf (ht : t.isLeaf = false) (h : p ∈ (Place.ofRoot t).nodes) {q : Place} (hq : q ∈ p.leaves) :
    (ofTree t).span? (.leaf q.leavesBefore) = some q.span := by
  obtain ⟨hq, hleaf⟩ := Place.mem_leaves_iff.mp hq
  rw [← Place.ref_leaf hleaf, (mirrors_ofTree ht (Place.mem_elements_trans (Place.mem_nodes_iff.mp h).1 hq)).span]

theorem start_of_firstLeaf (ht : t.isLeaf = false) {node leaf : Nat} (h : (ofTree t).firstLeaf? node = some leaf) :
    ((ofTree t).span? (.node node)).map Span.start = ((ofTree t).span? (.leaf leaf)).map Span.start := by
  obtain ⟨p, hp, rfl⟩ := exists_of_mem_leavesOf (List.mem_of_mem_head? h)
  rw [firstLeaf?, leavesOf_ofTree hp, List.head?_map, Option.map_eq_some_iff] at h
  obtain ⟨q, hq, rfl⟩ := h
  have hstart : q.span.start = p.start := p.tiles_leaves.start_head (by rw [List.head?_map, hq]; rfl)
  rw [span_node ht hp, span_leaf ht hp (List.mem_of_mem_head? hq), Option.map_some, Option.map_some, hstart]
  rfl

theorem stop_of_lastLeaf (ht : t.isLeaf = false) {node leaf : Nat} (h : (ofTree t).lastLeaf? node = some leaf) :
    ((ofTree t).span? (.node node)).map Span.stop = ((ofTree t).span? (.leaf leaf)).map Span.stop := by
  obtain ⟨p, hp, rfl⟩ := exists_of_mem_leavesOf (List.mem_of_getLast? h)
  rw [lastLeaf?, leavesOf_ofTree hp, List.getLast?_map, Option.map_eq_some_iff] at h
  obtain ⟨q, hq, rfl⟩ := h
  have hstop : q.span.stop = p.stop := p.tiles_leaves.stop_getLast (by rw [List.getLast?_map, hq]; rfl)
  rw [span_node ht hp, span_leaf ht hp (List.mem_of_getLast? hq), Option.map_some, Option.map_some, hstop]
  rfl

/-- What stands beside a leaf is an element too. -/
theorem leaf_beside (ht : t.isLeaf = false) {q : Place} {other : Nat} (h : p ∈ (Place.ofRoot t).leaves)
    (hq : p.right? = some q ∨ p.left? = some q) (href : q.ref = .leaf other) :
    q ∈ (Place.ofRoot t).leaves ∧ q.leavesBefore = other := by
  obtain ⟨parent, hparent, i, hi⟩ := exists_parent ht h
  have hchild : q ∈ parent.children := by
    rw [Place.right_of_child hi, Place.left_of_child hi] at hq
    rcases hq with hq | hq
    · exact List.mem_of_getElem? hq
    · split at hq
      · cases hq
      · exact List.mem_of_getElem? hq
  have hmem := Place.mem_elements_trans (Place.mem_nodes_iff.mp hparent).1 (Place.mem_elements_of_child hchild)
  cases hleaf : q.isLeaf with
  | true =>
    rw [Place.ref_leaf hleaf] at href
    exact ⟨Place.mem_leaves_iff.mpr ⟨hmem, hleaf⟩, Ref.leaf.inj href⟩
  | false =>
    rw [Place.ref_node hleaf] at href
    cases href

theorem right_left_ofTree (ht : t.isLeaf = false) (h : p ∈ (Place.ofRoot t).leaves) {other : Nat}
    (hright : (ofTree t).right? p.leavesBefore = some (.leaf other)) :
    (ofTree t).left? other = some (.leaf p.leavesBefore) := by
  rw [right_ofTree ht h, Option.map_eq_some_iff] at hright
  obtain ⟨q, hq, href⟩ := hright
  obtain ⟨hqmem, rfl⟩ := leaf_beside ht h (.inl hq) href
  obtain ⟨parent, -, i, hi⟩ := exists_parent ht h
  rw [left_ofTree ht hqmem, Place.right_left hi hq, Option.map_some, Place.ref_leaf (Place.mem_leaves_iff.mp h).2]

theorem left_right_ofTree (ht : t.isLeaf = false) (h : p ∈ (Place.ofRoot t).leaves) {other : Nat}
    (hleft : (ofTree t).left? p.leavesBefore = some (.leaf other)) :
    (ofTree t).right? other = some (.leaf p.leavesBefore) := by
  rw [left_ofTree ht h, Option.map_eq_some_iff] at hleft
  obtain ⟨q, hq, href⟩ := hleft
  obtain ⟨hqmem, rfl⟩ := leaf_beside ht h (.inr hq) href
  obtain ⟨parent, -, i, hi⟩ := exists_parent ht h
  rw [right_ofTree ht hqmem, Place.left_right hi hq, Option.map_some, Place.ref_leaf (Place.mem_leaves_iff.mp h).2]

theorem consistent_ofTree (ht : t.isLeaf = false) : (ofTree t).Consistent where
  tiles := by
    have hspans : (ofTree t).leaves.toList.map LeafRecord.span = (Place.ofRoot t).leaves.map Place.span := by
      simp [ofTree, Function.comp_def, Place.leafRecord]
    have htiles := (Place.ofRoot t).tiles_leaves
    rw [Place.stop, Tree.size_eq_byteSize, Place.ofRoot, Nat.zero_add] at htiles
    rw [hspans]
    exact htiles
  texts := by
    intro leaf hleaf
    obtain ⟨p, hp, rfl⟩ := exists_leaf hleaf
    obtain ⟨hp, hleaf⟩ := Place.mem_leaves_iff.mp hp
    rw [← Place.ref_leaf hleaf, (mirrors_ofTree ht hp).text]
    rfl
  leaves := by
    intro node hnode
    obtain ⟨p, hp, rfl⟩ := exists_node hnode
    exact ⟨_, yields_ofTree hp, by rw [leavesOf_ofTree hp, filterMap_leaf_stored]; rfl⟩
  start := fun _ _ => start_of_firstLeaf ht
  stop := fun _ _ => stop_of_lastLeaf ht
  empty := by
    intro node span hnone hspan
    obtain ⟨record, hrecord, -⟩ := Option.map_eq_some_iff.mp hspan
    obtain ⟨p, hp, rfl, -⟩ := exists_of_node hrecord
    rw [span_node ht hp] at hspan
    cases hspan
    rw [leavesOf_ofTree hp, List.map_eq_nil_iff] at hnone
    have htiles := p.tiles_leaves
    rw [hnone] at htiles
    exact htiles
  root := by
    intro node hnode hparent
    obtain ⟨p, hp, rfl⟩ := exists_node hnode
    obtain ⟨hmem, hnode⟩ := Place.mem_nodes_iff.mp hp
    rw [← Place.ref_node hnode, (mirrors_ofTree ht hmem).parent] at hparent
    rcases Place.eq_or_child hmem with rfl | ⟨q, -, i, hi⟩
    · rfl
    · rw [parentNumber_of_child hi] at hparent
      cases hparent
  child := by
    intro r parent index hparent hindex
    obtain ⟨p, hp, rfl⟩ := exists_element hindex
    have hmirrors := mirrors_ofTree ht hp
    rw [hmirrors.index] at hindex
    cases hindex
    exact childAt_parent hp (hmirrors.parent.symm.trans hparent)
  right_left := by
    intro leaf other hright
    obtain ⟨record, hrecord, -⟩ := Option.bind_eq_some_iff.mp hright
    obtain ⟨p, hp, rfl, -⟩ := exists_of_leaf hrecord
    exact right_left_ofTree ht hp hright
  left_right := by
    intro leaf other hleft
    obtain ⟨record, hrecord, -⟩ := Option.bind_eq_some_iff.mp hleft
    obtain ⟨p, hp, rfl, -⟩ := exists_of_leaf hrecord
    exact left_right_ofTree ht hp hleft

end

end Store

namespace Writer

open Builder (Call)
open Store

/-- The walk of a store that was written comes by the calls that wrote it, in their order, and by each leaf
once, over the next stretch of the text. The records agree with each other, and with the tree that a builder
makes of the same calls. -/
theorem build_walk {text : List Char} {calls : List Call} {store : Store} (h : build text calls = .ok store) :
    (∃ visits, Walk.Yields store (.ofNode 0) visits ∧
      visits.map store.call? = (calls.flatMap Call.shown).map some ∧
      visits.filterMap Store.Visit.leaf? = List.range store.leaves.size) ∧
    store.text = text ∧ store.Consistent ∧
    ∃ tree, Builder.build text calls = .ok tree ∧ ∀ p ∈ (Place.ofRoot tree).elements, store.Mirrors p := by
  obtain ⟨tree, hbuild, rfl⟩ := exists_of_build h
  have hspelled := Builder.spelledBy_of_build hbuild
  have hroot : Place.ofRoot tree ∈ (Place.ofRoot tree).nodes :=
    Place.mem_nodes_iff.mpr ⟨Place.mem_elements_iff.mpr (.inl rfl), hspelled.root⟩
  refine ⟨⟨_, yields_ofTree hroot, ?_, ?_⟩, hspelled.text, consistent_ofTree hspelled.root, tree, hbuild,
    fun p hp => mirrors_ofTree hspelled.root hp⟩
  · have hwalk : (Place.ofRoot tree).walk.map Visit.call = calls.flatMap Call.shown := by
      rw [← hspelled.calls]
      exact Place.map_call_walkTree 0 [] tree
    rw [← hwalk, List.map_map, List.map_map]
    exact List.map_congr_left fun v hv => call_stored hspelled.root hv
  · rw [filterMap_leaf_stored]
    exact map_leavesBefore_ofTree tree

/-- A store with a node without leaves and a leaf without text. -/
theorem build_walk_sparse :
    let calls : List Call := [.enter .sourceFile, .blanks 1, .enter .command, .leaf .ident 2, .leave, .blanks 0,
      .enter .error, .leave, .leaf .eof 0, .leave]
    ∃ store, build " é".toList calls = .ok store ∧
      (∃ visits, Walk.Yields store (.ofNode 0) visits ∧
        visits.map store.call? = (calls.flatMap Call.shown).map some ∧
        visits.filterMap Store.Visit.leaf? = List.range store.leaves.size) ∧
      store.text = " é".toList ∧ store.Consistent ∧
      ∃ tree, Builder.build " é".toList calls = .ok tree ∧
        ∀ p ∈ (Place.ofRoot tree).elements, store.Mirrors p := by
  have h : build " é".toList [.enter .sourceFile, .blanks 1, .enter .command, .leaf .ident 2, .leave, .blanks 0,
      .enter .error, .leave, .leaf .eof 0, .leave] = .ok ⟨" é".toList,
        #[⟨.sourceFile, none, 0, #[.leaf 0, .node 1, .node 2, .leaf 2], ⟨0, 3⟩, 0, 3⟩,
          ⟨.command, some 0, 1, #[.leaf 1], ⟨1, 3⟩, 1, 2⟩, ⟨.error, some 0, 2, #[], ⟨3, 3⟩, 2, 2⟩],
        #[⟨.whitespace, ⟨0, 1⟩, 0, 0⟩, ⟨.ident, ⟨1, 3⟩, 1, 0⟩, ⟨.eof, ⟨3, 3⟩, 0, 3⟩]⟩ := rfl
  exact ⟨_, h, build_walk h⟩

end Writer

/-! ## Stores of texts -/

namespace Tree

theorem length_le_count (ts : List Tree) : ts.length ≤ nodeCountAll ts + leafCountAll ts := by
  induction ts with
  | nil => exact Nat.zero_le _
  | cons t ts ih =>
    have hone : 0 < t.nodeCount + t.leafCount := by
      cases t with
      | leaf kind text => exact Nat.zero_lt_one
      | node kind ts =>
        rw [nodeCount]
        omega
    rw [List.length_cons, nodeCountAll, leafCountAll]
    omega

theorem count_le_of_mem {t : Tree} {ts : List Tree} (h : t ∈ ts) :
    t.nodeCount + t.leafCount ≤ nodeCountAll ts + leafCountAll ts := by
  obtain ⟨before, after, rfl⟩ := List.append_of_mem h
  rw [nodeCountAll_append, leafCountAll_append, nodeCountAll, leafCountAll]
  omega

end Tree

theorem Place.length_children_le {p q : Place} (h : q ∈ p.elements) :
    q.children.length ≤ p.tree.nodeCount + p.tree.leafCount := by
  induction p using Place.induct with
  | step p ih =>
    cases hp : p.tree with
    | leaf kind text =>
      have hleaf : p.isLeaf = true := by rw [isLeaf, hp]; rfl
      rw [elements_leaf hleaf, List.mem_singleton] at h
      rw [h, (walk_leaf hleaf).2]
      exact Nat.zero_le _
    | node kind ts =>
      have htrees := map_tree_of_node hp
      rw [Tree.nodeCount, Tree.leafCount, Nat.add_right_comm]
      refine Nat.le_succ_of_le ?_
      rcases mem_elements_iff.mp h with rfl | ⟨c, hc, hq⟩
      · rw [← List.length_map, htrees]
        exact Tree.length_le_count ts
      · exact Nat.le_trans (ih c hc hq) (Tree.count_le_of_mem (htrees ▸ List.mem_map_of_mem hc))

namespace Parse

variable {text : List Char}

theorem indexable (hsize : byteSize text ≤ 477218588) : (ofText text).tree.Indexable := by
  obtain ⟨items, l, h⟩ := Reading.exists_lines text
  have htree : (ofText text).tree = .node .sourceFile (Script.forest (Item.scriptsAll (fileItems items l))) := by
    rw [ofText_eq h (Nat.le_trans hsize (by decide))]
  have hlength := length_le_byteSize text
  have hnodes := nodeCount_le h
  have hleaves := leafCount_le h
  rw [← htree] at hnodes hleaves
  have hchildren : ∀ p ∈ (Place.ofRoot (ofText text).tree).elements,
      p.children.length ≤ (ofText text).tree.nodeCount + (ofText text).tree.leafCount :=
    fun _ hp => Place.length_children_le hp
  have hmax : maxOffset = 4294967295 := rfl
  exact ⟨by omega, by omega, fun p hp => Nat.le_trans (hchildren p hp) (by omega)⟩

theorem spelledBy (hsize : byteSize text ≤ maxOffset) {calls : List Builder.Call}
    (hcalls : (ofText text).tree.calls = calls.flatMap Builder.Call.shown) : (ofText text).tree.SpelledBy text calls := by
  obtain ⟨items, l, h⟩ := Reading.exists_lines text
  have hholds := holds_of_lines h hsize
  refine ⟨hholds.isNode, ?_, hcalls, hholds.text_eq⟩
  refine Tree.All.imp (fun t ht => ?_) _ (shaped hsize _ (Place.mem_elements_iff.mpr (.inl rfl)))
  cases t with
  | leaf kind text => exact ht
  | node kind ts => exact ht.1.1

/-- Of the calls that spell the tree of a text a writer makes its store, if the rules can log the text. -/
theorem build_of_calls (hsize : byteSize text ≤ 477218588) {calls : List Builder.Call}
    (hcalls : (ofText text).tree.calls = calls.flatMap Builder.Call.shown) :
    Writer.build text calls = .ok (.ofTree (ofText text).tree) := by
  have hmax : byteSize text ≤ maxOffset := Nat.le_trans hsize (by decide)
  exact Writer.build_of_indexable (Builder.build_of_spelledBy hmax (spelledBy hmax hcalls)) (indexable hsize)

end Parse

end Dofile
