import Dofile.Proofs.Order
import Dofile.Tree.Store

/-!
# The store of a tree

The elements of a tree are numbered as a walk comes by them, the nodes and the leaves each
on their own. The store of the tree holds the record of each element at its number, and
whatever it is asked about an element, it answers what the element's place answers.
-/

namespace Dofile

namespace Place

/-! ## Numbers -/

/-- The number of nodes that a walk enters before the elements below a way up. -/
def nodesAbove (above : List Crumb) : Nat := Tree.nodeCountAll (above.flatMap Crumb.before) + above.length

def nodesBefore (p : Place) : Nat := nodesAbove p.above

def ref (p : Place) : Store.Ref := if p.isLeaf then .leaf p.leavesBefore else .node p.nodesBefore

def parentNumber? (p : Place) : Option Nat := p.parent?.map nodesBefore

def nodeRecord (p : Place) : Store.NodeRecord where
  kind := p.kind
  parent? := p.parentNumber?
  index := p.index
  children := (p.children.map ref).toArray
  span := p.span
  firstLeaf := p.leavesBefore
  leafEnd := p.leavesBefore + p.tree.leafCount

def leafRecord (p : Place) : Store.LeafRecord where
  kind := p.kind
  span := p.span
  parent := p.parentNumber?.getD 0
  index := p.index

theorem ref_leaf {p : Place} (h : p.isLeaf = true) : p.ref = .leaf p.leavesBefore := if_pos h

theorem ref_node {p : Place} (h : p.isLeaf = false) : p.ref = .node p.nodesBefore := by simp [ref, h]

mutual

theorem map_nodesBefore_walkTree (start : Nat) (above : List Crumb) : ∀ t : Tree,
    ((walkTree start above t).filterMap Visit.node?).map nodesBefore = List.range' (nodesAbove above) t.nodeCount
  | .leaf _ _ => rfl
  | .node kind ts => by
    have hchildren := map_nodesBefore_walkTrees kind start above start [] ts
    simp only [walkTree, List.filterMap_cons, Visit.node?, List.filterMap_append, List.filterMap_nil,
      List.append_nil, List.map_cons, hchildren, Tree.nodeCount, List.range'_succ]
    rfl

theorem map_nodesBefore_walkTrees (kind : Kind) (start : Nat) (above : List Crumb) (pos : Nat)
    (before : List Tree) : ∀ ts : List Tree,
    ((walkTrees kind start above pos before ts).filterMap Visit.node?).map nodesBefore =
      List.range' (nodesAbove above + 1 + Tree.nodeCountAll before) (Tree.nodeCountAll ts)
  | [] => rfl
  | t :: ts => by
    have hfirst := map_nodesBefore_walkTree pos (⟨kind, start, before, ts⟩ :: above) t
    have hrest := map_nodesBefore_walkTrees kind start above (pos + t.size) (t :: before) ts
    have hnumber : nodesAbove (⟨kind, start, before, ts⟩ :: above) =
        nodesAbove above + 1 + Tree.nodeCountAll before := by
      simp only [nodesAbove, List.flatMap_cons, Tree.nodeCountAll_append, List.length_cons]
      omega
    have hnext : nodesAbove above + 1 + Tree.nodeCountAll (t :: before) =
        nodesAbove above + 1 + Tree.nodeCountAll before + t.nodeCount := by
      simp only [Tree.nodeCountAll]
      omega
    rw [walkTrees, List.filterMap_append, List.map_append, hfirst, hrest, hnumber, hnext, Tree.nodeCountAll,
      List.range'_append_1]

end

mutual

theorem map_leavesBefore_walkTree (start : Nat) (above : List Crumb) : ∀ t : Tree,
    ((walkTree start above t).filterMap Visit.leaf?).map leavesBefore =
      List.range' (Tree.leafCountAll (above.flatMap Crumb.before)) t.leafCount
  | .leaf _ _ => rfl
  | .node kind ts => by
    have hchildren := map_leavesBefore_walkTrees kind start above start [] ts
    simp only [walkTree, List.filterMap_cons, Visit.leaf?, List.filterMap_append, List.filterMap_nil,
      List.append_nil, hchildren]
    rfl

theorem map_leavesBefore_walkTrees (kind : Kind) (start : Nat) (above : List Crumb) (pos : Nat)
    (before : List Tree) : ∀ ts : List Tree,
    ((walkTrees kind start above pos before ts).filterMap Visit.leaf?).map leavesBefore =
      List.range' (Tree.leafCountAll (above.flatMap Crumb.before) + Tree.leafCountAll before) (Tree.leafCountAll ts)
  | [] => rfl
  | t :: ts => by
    have hfirst := map_leavesBefore_walkTree pos (⟨kind, start, before, ts⟩ :: above) t
    have hrest := map_leavesBefore_walkTrees kind start above (pos + t.size) (t :: before) ts
    have hnumber : Tree.leafCountAll ((⟨kind, start, before, ts⟩ :: above).flatMap Crumb.before) =
        Tree.leafCountAll (above.flatMap Crumb.before) + Tree.leafCountAll before := by
      rw [List.flatMap_cons, Tree.leafCountAll_append, Nat.add_comm]
    have hnext : Tree.leafCountAll (above.flatMap Crumb.before) + Tree.leafCountAll (t :: before) =
        Tree.leafCountAll (above.flatMap Crumb.before) + Tree.leafCountAll before + t.leafCount := by
      simp only [Tree.leafCountAll]
      omega
    rw [walkTrees, List.filterMap_append, List.map_append, hfirst, hrest, hnumber, hnext, Tree.leafCountAll,
      List.range'_append_1]

end

/-- The nodes below an element are numbered on from its own number. -/
theorem map_nodesBefore_nodes (p : Place) : p.nodes.map nodesBefore = List.range' p.nodesBefore p.tree.nodeCount :=
  map_nodesBefore_walkTree ..

theorem map_leavesBefore_leaves (p : Place) :
    p.leaves.map leavesBefore = List.range' p.leavesBefore p.tree.leafCount := map_leavesBefore_walkTree ..

theorem number_of_getElem? {number : Place → Nat} {ps : List Place} {first count i : Nat} {q : Place}
    (hnumbers : ps.map number = List.range' first count) (h : ps[i]? = some q) : number q = first + i := by
  have hnumber : (ps.map number)[i]? = some (number q) := by rw [List.getElem?_map, h]; rfl
  rw [hnumbers, List.getElem?_eq_some_iff] at hnumber
  obtain ⟨hi, hnumber⟩ := hnumber
  rw [← hnumber, List.getElem_range', Nat.one_mul]

theorem nodesBefore_of_getElem? {p q : Place} {i : Nat} (h : p.nodes[i]? = some q) :
    q.nodesBefore = p.nodesBefore + i := number_of_getElem? p.map_nodesBefore_nodes h

theorem leavesBefore_of_getElem? {p q : Place} {i : Nat} (h : p.leaves[i]? = some q) :
    q.leavesBefore = p.leavesBefore + i := number_of_getElem? p.map_leavesBefore_leaves h

theorem nodesBefore_of_child {p c : Place} {i : Nat} (h : p.children[i]? = some c) :
    c.nodesBefore = p.nodesBefore + 1 + Tree.nodeCountAll ((p.children.take i).map tree) := by
  obtain ⟨kind, ts, htree, -, -, habove⟩ := child_eq h
  simp only [List.map_take, map_tree_of_node htree, nodesBefore, nodesAbove, habove, List.flatMap_cons,
    Tree.nodeCountAll_append, Tree.nodeCountAll_reverse, List.length_cons]
  omega

theorem length_nodes (p : Place) : p.nodes.length = p.tree.nodeCount := by
  rw [← List.length_map, map_nodesBefore_nodes, List.length_range']

theorem length_flatMap_nodes (ps : List Place) : (ps.flatMap nodes).length = Tree.nodeCountAll (ps.map tree) := by
  induction ps with
  | nil => rfl
  | cons p ps ih =>
    rw [List.flatMap_cons, List.length_append, length_nodes, ih]
    rfl

end Place

def Visit.stored : Visit → Store.Visit
  | .enter p => .enter p.nodesBefore
  | .leaf p => .leaf p.leavesBefore
  | .leave p => .leave p.nodesBefore

def Place.Touch.stored : Place.Touch → Store.Touch
  | .none => .none
  | .one leaf => .one leaf.leavesBefore
  | .between left right => .between left.leavesBefore right.leavesBefore

namespace Store

/-! ## Lookups -/

def ofTree (t : Tree) : Store where
  text := t.text
  nodes := ((Place.ofRoot t).nodes.map Place.nodeRecord).toArray
  leaves := ((Place.ofRoot t).leaves.map Place.leafRecord).toArray

theorem size_nodes (t : Tree) : (ofTree t).nodes.size = t.nodeCount := by
  rw [ofTree, List.size_toArray, List.length_map, Place.length_nodes]
  rfl

theorem size_leaves (t : Tree) : (ofTree t).leaves.size = t.leafCount := by
  rw [ofTree, List.size_toArray, List.length_map, Place.length_leaves]
  rfl

section
variable {t : Tree} {p q : Place}

theorem exists_of_node {i : Nat} {record : NodeRecord} (h : (ofTree t).nodes[i]? = some record) :
    ∃ p ∈ (Place.ofRoot t).nodes, p.nodesBefore = i ∧ p.nodeRecord = record := by
  simp only [ofTree, List.getElem?_toArray, List.getElem?_map, Option.map_eq_some_iff] at h
  obtain ⟨p, hp, hrecord⟩ := h
  refine ⟨p, List.mem_of_getElem? hp, ?_, hrecord⟩
  exact (Place.nodesBefore_of_getElem? hp).trans (Nat.zero_add i)

theorem exists_of_leaf {i : Nat} {record : LeafRecord} (h : (ofTree t).leaves[i]? = some record) :
    ∃ p ∈ (Place.ofRoot t).leaves, p.leavesBefore = i ∧ p.leafRecord = record := by
  simp only [ofTree, List.getElem?_toArray, List.getElem?_map, Option.map_eq_some_iff] at h
  obtain ⟨p, hp, hrecord⟩ := h
  refine ⟨p, List.mem_of_getElem? hp, ?_, hrecord⟩
  exact (Place.leavesBefore_of_getElem? hp).trans (Nat.zero_add i)

theorem node_ofTree (h : p ∈ (Place.ofRoot t).nodes) : (ofTree t).nodes[p.nodesBefore]? = some p.nodeRecord := by
  obtain ⟨i, hi⟩ := List.mem_iff_getElem?.mp h
  rw [Place.nodesBefore_of_getElem? hi]
  simp [ofTree, Place.nodesBefore, Place.nodesAbove, Place.ofRoot, Tree.nodeCountAll] at hi ⊢
  simp [hi]

theorem leaf_ofTree (h : p ∈ (Place.ofRoot t).leaves) : (ofTree t).leaves[p.leavesBefore]? = some p.leafRecord := by
  obtain ⟨i, hi⟩ := List.mem_iff_getElem?.mp h
  rw [Place.leavesBefore_of_getElem? hi]
  simp [ofTree, Place.leavesBefore, Place.ofRoot, Tree.leafCountAll] at hi ⊢
  simp [hi]

/-! ## Sideways and down -/

theorem children_ofTree (h : p ∈ (Place.ofRoot t).nodes) :
    (ofTree t).children p.nodesBefore = p.children.map Place.ref := by
  simp [children, node_ofTree h, Place.nodeRecord]

theorem leavesOf_ofTree (h : p ∈ (Place.ofRoot t).nodes) :
    (ofTree t).leavesOf p.nodesBefore = p.leaves.map Place.leavesBefore := by
  rw [leavesOf, node_ofTree h, Place.map_leavesBefore_leaves]
  simp [Place.nodeRecord]

theorem parentNumber_of_child {i : Nat} (h : q.children[i]? = some p) : p.parentNumber? = some q.nodesBefore := by
  rw [Place.parentNumber?, (Place.parent_of_child h).1]
  rfl

theorem childAt_ofTree {i : Nat} (hq : q ∈ (Place.ofRoot t).nodes) :
    (ofTree t).childAt? q.nodesBefore i = q.children[i]?.map Place.ref := by
  rw [childAt?, children_ofTree hq, List.getElem?_map]

/-- A leaf is below some node, unless it is all of the tree. -/
theorem exists_parent (ht : t.isLeaf = false) (h : p ∈ (Place.ofRoot t).leaves) :
    ∃ q ∈ (Place.ofRoot t).nodes, ∃ i : Nat, q.children[i]? = some p := by
  obtain ⟨hp, hleaf⟩ := Place.mem_leaves_iff.mp h
  refine (Place.eq_or_child hp).resolve_left ?_
  rintro rfl
  exact absurd (ht.symm.trans hleaf) Bool.false_ne_true

theorem right_ofTree (ht : t.isLeaf = false) (h : p ∈ (Place.ofRoot t).leaves) :
    (ofTree t).right? p.leavesBefore = p.right?.map Place.ref := by
  obtain ⟨q, hq, i, hi⟩ := exists_parent ht h
  simp only [right?, leaf_ofTree h, Option.bind_eq_bind, Option.bind_some, Place.leafRecord,
    parentNumber_of_child hi, Option.getD_some, childAt_ofTree hq, (Place.parent_of_child hi).2,
    Place.right_of_child hi]

theorem left_ofTree (ht : t.isLeaf = false) (h : p ∈ (Place.ofRoot t).leaves) :
    (ofTree t).left? p.leavesBefore = p.left?.map Place.ref := by
  obtain ⟨q, hq, i, hi⟩ := exists_parent ht h
  simp only [left?, leaf_ofTree h, Option.bind_eq_bind, Option.bind_some, Place.leafRecord,
    parentNumber_of_child hi, Option.getD_some, (Place.parent_of_child hi).2, Place.left_of_child hi]
  cases i with
  | zero => rfl
  | succ i => exact childAt_ofTree hq

/-! ## Walks -/

theorem yields_children {first? : Option Nat} {n : Nat} {outer : List (Nat × List Ref)} {vs : List Visit} :
    ∀ {ps : List Place}, (∀ p ∈ ps, ∀ (rest : List Ref) (us : List Visit),
        Walk.Yields (ofTree t) ⟨first?, (n, rest) :: outer⟩ us →
          Walk.Yields (ofTree t) ⟨first?, (n, p.ref :: rest) :: outer⟩ (p.walk.map Visit.stored ++ us)) →
      Walk.Yields (ofTree t) ⟨first?, outer⟩ vs →
        Walk.Yields (ofTree t) ⟨first?, (n, ps.map Place.ref) :: outer⟩
          ((ps.flatMap Place.walk).map Visit.stored ++ .leave n :: vs)
  | [], _, h => .visit rfl h
  | p :: ps, hps, h => by
    have hrest := yields_children (fun q hq => hps q (List.mem_cons_of_mem p hq)) h
    rw [List.map_cons, List.flatMap_cons, List.map_append, List.append_assoc]
    exact hps p List.mem_cons_self _ _ hrest

/-- A walk that comes to an element comes by what is below it, and goes on behind it. -/
theorem yields_element (h : p ∈ (Place.ofRoot t).elements) (first? : Option Nat) (n : Nat) (rest : List Ref)
    (outer : List (Nat × List Ref)) (vs : List Visit)
    (hvs : Walk.Yields (ofTree t) ⟨first?, (n, rest) :: outer⟩ vs) :
    Walk.Yields (ofTree t) ⟨first?, (n, p.ref :: rest) :: outer⟩ (p.walk.map Visit.stored ++ vs) := by
  induction p using Place.induct generalizing n rest outer vs with
  | step p ih =>
    cases hleaf : p.isLeaf with
    | true =>
      rw [(Place.walk_leaf hleaf).1, Place.ref_leaf hleaf]
      exact .visit rfl hvs
    | false =>
      have hchildren : ∀ c ∈ p.children, ∀ (rest' : List Ref) (us : List Visit),
          Walk.Yields (ofTree t) ⟨first?, (p.nodesBefore, rest') :: (n, rest) :: outer⟩ us →
            Walk.Yields (ofTree t) ⟨first?, (p.nodesBefore, c.ref :: rest') :: (n, rest) :: outer⟩
              (c.walk.map Visit.stored ++ us) := fun c hc rest' us =>
        ih c hc (Place.mem_elements_trans h (Place.mem_elements_of_child hc)) p.nodesBefore rest' _ us
      rw [Place.walk_node hleaf, Place.ref_node hleaf]
      refine .visit rfl ?_
      rw [children_ofTree (Place.mem_nodes_iff.mpr ⟨h, hleaf⟩)]
      simpa [Visit.stored] using yields_children hchildren hvs

/-- The walk from a node comes by what the walk of its place does. -/
theorem yields_ofTree (h : p ∈ (Place.ofRoot t).nodes) :
    Walk.Yields (ofTree t) (.ofNode p.nodesBefore) (p.walk.map Visit.stored) := by
  obtain ⟨hp, hnode⟩ := Place.mem_nodes_iff.mp h
  rw [Place.walk_node hnode, List.map_cons, List.map_append]
  refine .visit rfl ?_
  rw [children_ofTree h]
  refine yields_children (fun c hc rest us hus => ?_) (.done rfl)
  exact yields_element (Place.mem_elements_trans hp (Place.mem_elements_of_child hc)) none p.nodesBefore rest [] us hus

end

/-! ## Leaves at an offset -/

section
variable {α : Type} {test : α → Bool}

/-- Where the elements that pass a test come first, their number tells which those are. -/
theorem test_getElem_iff {xs : List α} (h : xs.Pairwise fun a b => test b → test a) {i : Nat} (hi : i < xs.length) :
    test xs[i] = true ↔ i < (xs.takeWhile test).length := by
  induction xs generalizing i with
  | nil => exact absurd hi (Nat.not_lt_zero i)
  | cons x xs ih =>
    obtain ⟨hx, hxs⟩ := List.pairwise_cons.mp h
    cases htest : test x with
    | true =>
      rw [List.takeWhile_cons_of_pos htest]
      cases i with
      | zero => simp [htest]
      | succ i => simpa using ih hxs (Nat.lt_of_succ_lt_succ hi)
    | false =>
      rw [List.takeWhile_cons_of_neg (by simp [htest])]
      have hnone : ∀ y ∈ x :: xs, test y = false := List.forall_mem_cons.mpr
        ⟨htest, fun y hy => Bool.eq_false_iff.mpr fun hy' => by simp [hx y hy hy'] at htest⟩
      simp [hnone _ (List.getElem_mem hi)]

theorem partitionPoint_eq {xs : Array α} (h : xs.toList.Pairwise fun a b => test b → test a) :
    partitionPoint test xs = (xs.toList.takeWhile test).length := by
  -- the number searched for is never left of `low` or right of `high`
  have hgo : ∀ low high : Nat, low ≤ (xs.toList.takeWhile test).length → (xs.toList.takeWhile test).length ≤ high →
      high ≤ xs.size → partitionPoint.go test xs low high = (xs.toList.takeWhile test).length := by
    intro low high
    fun_induction partitionPoint.go test xs low high with
    | case1 low high hlt middle htest ih =>
      intro hlow hhigh hsize
      have hmiddle : middle < xs.size := by omega
      have hpass := (test_getElem_iff h (i := middle) hmiddle).mp (by simpa [hmiddle] using htest)
      exact ih hpass hhigh hsize
    | case2 low high hlt middle htest ih =>
      intro hlow hhigh hsize
      have hmiddle : middle < xs.size := by omega
      have hfail := (test_getElem_iff h (i := middle) hmiddle).not.mp (by simpa [hmiddle] using htest)
      exact ih hlow (Nat.not_lt.mp hfail) (by omega)
    | case3 low high hlt => omega
  exact hgo 0 xs.size (Nat.zero_le _) ((List.takeWhile_prefix test).length_le) (Nat.le_refl _)

end

section
variable {t : Tree} {p : Place}

theorem extract_ofTree (h : p ∈ (Place.ofRoot t).elements) :
    (ofTree t).leaves.extract p.leavesBefore (p.leavesBefore + p.tree.leafCount) =
      (p.leaves.map Place.leafRecord).toArray := by
  have hleaves := Place.leaves_eq_take_drop h
  have hzero : (Place.ofRoot t).leavesBefore = 0 := rfl
  rw [hzero, Nat.sub_zero] at hleaves
  simp [ofTree, hleaves]

/-- Where a list is cut behind a beginning, places of its second part are told on from there. -/
theorem getElem?_behind {α : Type} {xs front back : List α} (h : front ++ back = xs) (i : Nat) :
    xs[front.length + i]? = back[i]? := by
  rw [← h, List.getElem?_append_right (Nat.le_add_right ..), Nat.add_sub_cancel_left]

theorem leavesAt_ofTree (h : p ∈ (Place.ofRoot t).nodes) (offset : Nat) :
    (ofTree t).leavesAt p.nodesBefore offset = (p.leavesAt offset).stored := by
  have hpoint : partitionPoint (fun leaf : LeafRecord => decide (leaf.span.stop < offset))
      (p.leaves.map Place.leafRecord).toArray = (p.leaves.takeWhile fun leaf => decide (leaf.stop < offset)).length := by
    rw [partitionPoint_eq]
    · rw [List.takeWhile_map, List.length_map]
      rfl
    · simpa [List.pairwise_map, Place.leafRecord, Place.span] using p.partitioned_leaves offset
  have hsplit := List.takeWhile_append_dropWhile (p := fun leaf : Place => decide (leaf.stop < offset)) (l := p.leaves)
  have hbehind := getElem?_behind hsplit
  have hlength := congrArg List.length hsplit
  rw [List.length_append] at hlength
  simp only [leavesAt, node_ofTree h, Place.nodeRecord, extract_ofTree (Place.mem_nodes_iff.mp h).1, hpoint,
    Place.leavesAt, Place.span]
  by_cases hin : p.start ≤ offset ∧ offset ≤ p.stop
  · rw [if_pos hin, if_pos hin]
    generalize (p.leaves.takeWhile fun leaf => decide (leaf.stop < offset)).length = point at hbehind hlength
    generalize p.leaves.dropWhile (fun leaf => decide (leaf.stop < offset)) = found at hbehind hlength
    have hfirst : (p.leaves.map Place.leafRecord).toArray[point]? = found[0]?.map Place.leafRecord := by
      rw [List.getElem?_toArray, List.getElem?_map, ← hbehind 0, Nat.add_zero]
    have hsize : (p.leaves.map Place.leafRecord).toArray.size = point + found.length := by simpa using hlength.symm
    simp only [hfirst, hsize]
    cases found with
    | nil => rfl
    | cons left rest =>
      have hnumber := Place.leavesBefore_of_getElem? (hbehind 0)
      cases rest with
      | nil => simp [Place.Touch.stored, hnumber]
      | cons right rest =>
        have hnumber' := Place.leavesBefore_of_getElem? (hbehind 1)
        by_cases hstop : left.stop = offset <;>
          simp [Place.Touch.stored, Place.leafRecord, Place.span, hstop, hnumber, hnumber', Nat.add_assoc]
  · rw [if_neg hin, if_neg hin]
    rfl

/-! ## All answers -/

/-- Of an element a store tells what its place does, the elements around it by their numbers. -/
structure Mirrors (s : Store) (p : Place) : Prop where
  kind : s.kind? p.ref = some p.kind
  span : s.span? p.ref = some p.span
  text : s.text? p.ref = some p.text
  parent : s.parent? p.ref = p.parentNumber?
  index : s.index? p.ref = some p.index
  right : p.isLeaf = true → s.right? p.leavesBefore = p.right?.map Place.ref
  left : p.isLeaf = true → s.left? p.leavesBefore = p.left?.map Place.ref
  children : p.isLeaf = false → s.children p.nodesBefore = p.children.map Place.ref
  leaves : p.isLeaf = false → s.leavesOf p.nodesBefore = p.leaves.map Place.leavesBefore
  walk : p.isLeaf = false → Walk.Yields s (.ofNode p.nodesBefore) (p.walk.map Visit.stored)
  leavesAt : p.isLeaf = false → ∀ offset, s.leavesAt p.nodesBefore offset = (p.leavesAt offset).stored

theorem mirrors_ofTree (ht : t.isLeaf = false) (h : p ∈ (Place.ofRoot t).elements) : (ofTree t).Mirrors p := by
  have htext : p.span.slice? (ofTree t).text = some p.text := Place.slice_span rfl h
  cases hleaf : p.isLeaf with
  | true =>
    have hmem := Place.mem_leaves_iff.mpr ⟨h, hleaf⟩
    have hrecord := leaf_ofTree hmem
    obtain ⟨q, hq, i, hi⟩ := exists_parent ht hmem
    have hparent := parentNumber_of_child hi
    have hnode : p.isLeaf ≠ false := by simp [hleaf]
    refine ⟨?_, ?_, ?_, ?_, ?_, fun _ => right_ofTree ht hmem, fun _ => left_ofTree ht hmem,
      fun h => absurd h hnode, fun h => absurd h hnode, fun h => absurd h hnode, fun h => absurd h hnode⟩
    all_goals
      simp [Place.ref_leaf hleaf, kind?, span?, text?, parent?, index?, hrecord, Place.leafRecord, hparent, htext]
  | false =>
    have hmem := Place.mem_nodes_iff.mpr ⟨h, hleaf⟩
    have hrecord := node_ofTree hmem
    have hnode : p.isLeaf ≠ true := by simp [hleaf]
    refine ⟨?_, ?_, ?_, ?_, ?_, fun h => absurd h hnode, fun h => absurd h hnode, fun _ => children_ofTree hmem,
      fun _ => leavesOf_ofTree hmem, fun _ => yields_ofTree hmem, fun _ => leavesAt_ofTree hmem⟩
    all_goals
      simp [Place.ref_node hleaf, kind?, span?, text?, parent?, index?, hrecord, Place.nodeRecord, htext]

end

end Store

end Dofile
