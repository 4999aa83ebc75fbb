import Dofile.Proofs.Leaves
import Dofile.Proofs.Parts
import Dofile.Proofs.Tiling

/-!
# Walks

The walk of an element goes through those of its children, so what holds of the elements
of a tree goes by induction from the children of an element to the element. A part of a walk leads
from one element to another, past so many leaves and over so much of the text.
-/

namespace Dofile

namespace Tree

theorem nodeCountAll_append (ts us : List Tree) : nodeCountAll (ts ++ us) = nodeCountAll ts + nodeCountAll us := by
  induction ts with
  | nil => simp [nodeCountAll]
  | cons t ts ih => simp [nodeCountAll, ih, Nat.add_assoc]

theorem nodeCountAll_reverse (ts : List Tree) : nodeCountAll ts.reverse = nodeCountAll ts := by
  induction ts with
  | nil => rfl
  | cons t ts ih => simp [nodeCountAll_append, nodeCountAll, ih, Nat.add_comm]

theorem leafCountAll_append (ts us : List Tree) :
    leafCountAll (ts ++ us) = leafCountAll ts + leafCountAll us := by
  induction ts with
  | nil => simp [leafCountAll]
  | cons t ts ih => simp [leafCountAll, ih, Nat.add_assoc]

theorem leafCountAll_reverse (ts : List Tree) : leafCountAll ts.reverse = leafCountAll ts := by
  induction ts with
  | nil => rfl
  | cons t ts ih => simp [leafCountAll_append, leafCountAll, ih, Nat.add_comm]

theorem sizeAll_append (ts us : List Tree) : sizeAll (ts ++ us) = sizeAll ts + sizeAll us := by
  simp only [sizeAll_eq_byteSize, textAll_append, byteSize_append]

theorem leavesAll_eq (ts : List Tree) : leavesAll ts = ts.flatMap leaves := by
  induction ts with
  | nil => rfl
  | cons t ts ih => rw [leavesAll, ih, List.flatMap_cons]

mutual

theorem length_leaves : ∀ t : Tree, t.leaves.length = t.leafCount
  | .leaf _ _ => rfl
  | .node _ ts => length_leavesAll ts

theorem length_leavesAll : ∀ ts : List Tree, (leavesAll ts).length = leafCountAll ts
  | [] => rfl
  | t :: ts => by
    rw [leavesAll, List.length_append, length_leaves t, length_leavesAll ts]
    rfl

end

end Tree

namespace Place

/-! ## Children -/

theorem getElem?_placesFrom (kind : Kind) (start : Nat) (above : List Crumb) :
    ∀ (ts : List Tree) (pos : Nat) (before : List Tree) (i : Nat),
      (placesFrom kind start above pos before ts)[i]? = ts[i]?.map fun t =>
        ⟨t, pos + Tree.sizeAll (ts.take i),
          ⟨kind, start, (ts.take i).reverse ++ before, ts.drop (i + 1)⟩ :: above⟩
  | [], _, _, _ => rfl
  | t :: ts, pos, before, 0 => by simp [placesFrom, Tree.sizeAll]
  | t :: ts, pos, before, i + 1 => by
    rw [placesFrom, List.getElem?_cons_succ, getElem?_placesFrom kind start above ts]
    simp [Tree.sizeAll, Nat.add_assoc]

theorem child_eq {p c : Place} {i : Nat} (h : p.children[i]? = some c) : ∃ kind ts,
    p.tree = .node kind ts ∧ ts[i]? = some c.tree ∧ c.start = p.start + Tree.sizeAll (ts.take i) ∧
      c.above = ⟨kind, p.start, (ts.take i).reverse, ts.drop (i + 1)⟩ :: p.above := by
  obtain ⟨tree, start, above⟩ := p
  cases tree with
  | leaf kind text => simp [children] at h
  | node kind ts =>
    simp only [children, getElem?_placesFrom, Option.map_eq_some_iff, List.append_nil] at h
    obtain ⟨t, ht, rfl⟩ := h
    exact ⟨kind, ts, rfl, ht, rfl, rfl⟩

theorem map_tree_of_node {p : Place} {kind : Kind} {ts : List Tree} (h : p.tree = .node kind ts) :
    p.children.map tree = ts := by
  obtain ⟨tree, start, above⟩ := p
  subst h
  exact map_tree_placesFrom ..

theorem children_split {p c : Place} {i : Nat} (h : p.children[i]? = some c) :
    p.children = p.children.take i ++ c :: p.children.drop (i + 1) := by
  obtain ⟨hi, rfl⟩ := List.getElem?_eq_some_iff.mp h
  rw [← List.drop_eq_getElem_cons hi, List.take_append_drop]

theorem parent_of_child {p c : Place} {i : Nat} (h : p.children[i]? = some c) :
    c.parent? = some p ∧ c.index = i := by
  obtain ⟨kind, ts, htree, hc, -, habove⟩ := child_eq h
  obtain ⟨hi, hget⟩ := List.getElem?_eq_some_iff.mp hc
  have hlength : (ts.take i).length = i := List.length_take_of_le (Nat.le_of_lt hi)
  refine ⟨?_, by simp [index, habove, hlength]⟩
  have hplug : ts.take i ++ c.tree :: ts.drop (i + 1) = ts := by
    rw [← hget, ← List.drop_eq_getElem_cons hi, List.take_append_drop]
  obtain ⟨tree, start, above⟩ := p
  simp only at htree
  simp [parent?, habove, Crumb.plug, hplug, htree]

theorem parentKinds_of_child {p c : Place} {i : Nat} (h : p.children[i]? = some c) :
    c.parentKinds = p.kind :: p.parentKinds := by
  obtain ⟨kind, ts, htree, -, -, habove⟩ := child_eq h
  rw [parentKinds, habove, Place.kind, htree]
  rfl

theorem tiles_placesFrom (kind : Kind) (start : Nat) (above : List Crumb) :
    ∀ (pos : Nat) (before ts : List Tree),
      Tiles pos ((placesFrom kind start above pos before ts).map span) (pos + Tree.sizeAll ts)
  | _, _, [] => rfl
  | pos, before, t :: ts => by
    rw [Tree.sizeAll, ← Nat.add_assoc]
    exact ⟨rfl, tiles_placesFrom kind start above (pos + t.size) (t :: before) ts⟩

/-! ## Walks of children -/

theorem walkTrees_eq (kind : Kind) (start : Nat) (above : List Crumb) : ∀ (pos : Nat) (before ts : List Tree),
    walkTrees kind start above pos before ts = (placesFrom kind start above pos before ts).flatMap walk
  | _, _, [] => rfl
  | pos, before, t :: ts => by
    rw [walkTrees, placesFrom, List.flatMap_cons, walkTrees_eq kind start above]
    rfl

theorem walk_leaf {p : Place} (h : p.isLeaf = true) : p.walk = [.leaf p] ∧ p.children = [] := by
  obtain ⟨tree, start, above⟩ := p
  cases tree with
  | leaf kind text => exact ⟨by simp [walk, walkTree], rfl⟩
  | node kind ts => cases h

theorem walk_node {p : Place} (h : p.isLeaf = false) :
    p.walk = .enter p :: (p.children.flatMap walk ++ [.leave p]) := by
  obtain ⟨tree, start, above⟩ := p
  cases tree with
  | leaf kind text => cases h
  | node kind ts => simp only [walk, walkTree, walkTrees_eq, children]

theorem isLeaf_of_mem_children {p c : Place} (h : c ∈ p.children) : p.isLeaf = false := by
  cases hleaf : p.isLeaf with
  | false => rfl
  | true => simp [walk_leaf hleaf] at h

theorem tiles_children {p : Place} (h : p.isLeaf = false) : Tiles p.start (p.children.map span) p.stop := by
  obtain ⟨tree, start, above⟩ := p
  cases tree with
  | leaf kind text => cases h
  | node kind ts => exact tiles_placesFrom kind start above start [] ts

theorem elements_eq (p : Place) : p.elements = p :: p.children.flatMap elements := by
  unfold elements
  cases h : p.isLeaf with
  | true => simp [walk_leaf h, Visit.element?]
  | false => simp [walk_node h, Visit.element?, List.filterMap_flatMap]

theorem elements_leaf {p : Place} (h : p.isLeaf = true) : p.elements = [p] := by
  rw [elements_eq, (walk_leaf h).2]
  rfl

theorem leaves_leaf {p : Place} (h : p.isLeaf = true) : p.leaves = [p] := by
  simp [leaves, walk_leaf h, Visit.leaf?]

theorem leaves_node {p : Place} (h : p.isLeaf = false) : p.leaves = p.children.flatMap leaves := by
  unfold leaves
  rw [walk_node h, List.filterMap_cons_none rfl, List.filterMap_append, List.filterMap_flatMap]
  exact List.append_nil _

theorem nodes_eq (p : Place) :
    p.nodes = (if p.isLeaf then [] else [p]) ++ p.children.flatMap nodes := by
  unfold nodes
  cases h : p.isLeaf with
  | true => simp [walk_leaf h, Visit.node?]
  | false => simp [walk_node h, Visit.node?, List.filterMap_flatMap]

/-- What the children of an element hand up to it holds of every element. -/
theorem induct {motive : Place → Prop} (step : ∀ p : Place, (∀ c ∈ p.children, motive c) → motive p)
    (p : Place) : motive p :=
  step p fun c _ => induct step c
termination_by sizeOf p.tree
decreasing_by
  obtain ⟨i, hi⟩ := List.mem_iff_getElem?.mp ‹c ∈ p.children›
  obtain ⟨kind, ts, htree, hc, -⟩ := child_eq hi
  have hlt := List.sizeOf_lt_of_mem (List.mem_of_getElem? hc)
  simp only [htree, Tree.node.sizeOf_spec]
  omega

theorem mem_elements_iff {p q : Place} : q ∈ p.elements ↔ q = p ∨ ∃ c ∈ p.children, q ∈ c.elements := by
  rw [elements_eq, List.mem_cons, List.mem_flatMap]

theorem mem_elements_of_child {p c : Place} (hc : c ∈ p.children) : c ∈ p.elements :=
  mem_elements_iff.mpr (.inr ⟨c, hc, mem_elements_iff.mpr (.inl rfl)⟩)

theorem mem_nodes_iff {p q : Place} : q ∈ p.nodes ↔ q ∈ p.elements ∧ q.isLeaf = false := by
  induction p using induct with
  | step p ih =>
    have hchildren : (∃ c ∈ p.children, q ∈ c.nodes) ↔ ∃ c ∈ p.children, q ∈ c.elements ∧ q.isLeaf = false :=
      exists_congr fun c => and_congr_right (ih c)
    rw [nodes_eq, List.mem_append, List.mem_flatMap, hchildren, mem_elements_iff]
    cases h : p.isLeaf <;> grind

theorem mem_leaves_iff {p q : Place} : q ∈ p.leaves ↔ q ∈ p.elements ∧ q.isLeaf = true := by
  induction p using induct with
  | step p ih =>
    have hchildren : (∃ c ∈ p.children, q ∈ c.leaves) ↔ ∃ c ∈ p.children, q ∈ c.elements ∧ q.isLeaf = true :=
      exists_congr fun c => and_congr_right (ih c)
    rw [mem_elements_iff]
    cases h : p.isLeaf with
    | true => simp [leaves_leaf h, walk_leaf h]; grind
    | false =>
      rw [leaves_node h, List.mem_flatMap, hchildren]
      grind

theorem eq_or_child {p q : Place} (h : q ∈ p.elements) :
    q = p ∨ ∃ r ∈ p.nodes, ∃ i : Nat, r.children[i]? = some q := by
  induction p using induct with
  | step p ih =>
    rcases mem_elements_iff.mp h with rfl | ⟨c, hc, hq⟩
    · exact .inl rfl
    · rcases ih c hc hq with rfl | ⟨r, hr, hchild⟩
      · exact .inr ⟨p, mem_nodes_iff.mpr ⟨mem_elements_iff.mpr (.inl rfl), isLeaf_of_mem_children hc⟩,
          List.mem_iff_getElem?.mp hc⟩
      · obtain ⟨hr, hnode⟩ := mem_nodes_iff.mp hr
        exact .inr ⟨r, mem_nodes_iff.mpr ⟨mem_elements_iff.mpr (.inr ⟨c, hc, hr⟩), hnode⟩, hchild⟩

/-! ## Leaves -/

theorem tiles_leaves (p : Place) : Tiles p.start (p.leaves.map span) p.stop := by
  induction p using induct with
  | step p ih =>
    cases h : p.isLeaf with
    | true =>
      rw [leaves_leaf h]
      exact ⟨rfl, rfl⟩
    | false =>
      rw [leaves_node h, List.map_flatMap]
      exact (tiles_children h).flatMap fun c hc => ih c hc

theorem flatMap_text_leaves (ps : List Place) :
    (ps.flatMap leaves).flatMap text = Tree.textAll (ps.map tree) := by
  have htexts : (ps.flatMap leaves).flatMap text = ((ps.flatMap leaves).map tree).flatMap Tree.text := by
    rw [List.flatMap_map]
    rfl
  rw [htexts, List.map_flatMap, ← Tree.flatMap_text_leavesAll, Tree.leavesAll_eq, List.flatMap_map]
  simp only [map_tree_leaves]

theorem length_leaves (p : Place) : p.leaves.length = p.tree.leafCount := by
  rw [← List.length_map (f := tree), map_tree_leaves, Tree.length_leaves]

theorem length_flatMap_leaves (ps : List Place) :
    (ps.flatMap leaves).length = Tree.leafCountAll (ps.map tree) := by
  rw [← List.length_map (f := tree), List.map_flatMap, ← Tree.length_leavesAll, Tree.leavesAll_eq, List.flatMap_map]
  simp only [map_tree_leaves]

theorem text_eq (p : Place) : p.leaves.flatMap text = p.text := by
  have := flatMap_text_leaves [p]
  simpa [Tree.textAll, text] using this

/-- The number of leaves of the tree before an element. -/
def leavesBefore (p : Place) : Nat := Tree.leafCountAll (p.above.flatMap Crumb.before)

/-- What a part of a walk comes by stands between two elements: so many leaves further, and so many
bytes of text, the second one begins. -/
def Leads (p : Place) (visits : List Visit) (q : Place) : Prop :=
  q.leavesBefore = p.leavesBefore + (visits.filterMap Visit.leaf?).length ∧
    q.start = p.start + byteSize ((visits.filterMap Visit.leaf?).flatMap text)

theorem start_of_child {p c : Place} {i : Nat} (h : p.children[i]? = some c) :
    c.start = p.start + Tree.sizeAll ((p.children.take i).map tree) := by
  obtain ⟨kind, ts, htree, -, hstart, -⟩ := child_eq h
  rw [List.map_take, map_tree_of_node htree, hstart]

theorem leavesBefore_of_child {p c : Place} {i : Nat} (h : p.children[i]? = some c) :
    c.leavesBefore = p.leavesBefore + Tree.leafCountAll ((p.children.take i).map tree) := by
  obtain ⟨kind, ts, htree, -, -, habove⟩ := child_eq h
  rw [List.map_take, map_tree_of_node htree, leavesBefore, leavesBefore, habove, List.flatMap_cons,
    Tree.leafCountAll_append, Tree.leafCountAll_reverse, Nat.add_comm]

theorem leads_child {p c : Place} {i : Nat} (h : p.children[i]? = some c) :
    p.Leads (.enter p :: (p.children.take i).flatMap walk) c := by
  have hleaves : (Visit.enter p :: (p.children.take i).flatMap walk).filterMap Visit.leaf? =
      (p.children.take i).flatMap leaves := by
    rw [List.filterMap_cons_none rfl, List.filterMap_flatMap]
    rfl
  unfold Leads
  rw [hleaves, length_flatMap_leaves, flatMap_text_leaves, ← Tree.sizeAll_eq_byteSize]
  exact ⟨leavesBefore_of_child h, start_of_child h⟩

theorem Leads.trans {p q r : Place} {us vs : List Visit} (h : p.Leads us q) (h' : q.Leads vs r) :
    p.Leads (us ++ vs) r := by
  obtain ⟨hcount, hstart⟩ := h
  obtain ⟨hcount', hstart'⟩ := h'
  constructor
  · rw [List.filterMap_append, List.length_append, hcount', hcount, Nat.add_assoc]
  · rw [List.filterMap_append, List.flatMap_append, byteSize_append, hstart', hstart, Nat.add_assoc]

theorem walk_infix {p q : Place} (h : q ∈ p.elements) :
    ∃ us vs, p.walk = us ++ q.walk ++ vs ∧ p.Leads us q := by
  induction p using induct with
  | step p ih =>
    rcases mem_elements_iff.mp h with rfl | ⟨c, hc, hq⟩
    · exact ⟨[], [], by simp, rfl, rfl⟩
    · obtain ⟨us, vs, hwalk, hleads⟩ := ih c hc hq
      obtain ⟨i, hi⟩ := List.mem_iff_getElem?.mp hc
      refine ⟨.enter p :: (p.children.take i).flatMap walk ++ us,
        vs ++ (p.children.drop (i + 1)).flatMap walk ++ [.leave p], ?_, (leads_child hi).trans hleads⟩
      have hsplit : p.children.flatMap walk =
          (p.children.take i).flatMap walk ++ (c.walk ++ (p.children.drop (i + 1)).flatMap walk) := by
        rw [← List.flatMap_cons, ← List.flatMap_append, ← children_split hi]
      rw [walk_node (isLeaf_of_mem_children hc), hsplit, hwalk]
      simp

theorem slice_span {root p : Place} (hroot : root.start = 0) (h : p ∈ root.elements) :
    p.span.slice? root.text = some p.text := by
  obtain ⟨us, vs, hwalk, -, hstart⟩ := walk_infix h
  have htext : root.text =
      (us.filterMap Visit.leaf?).flatMap text ++ (p.text ++ (vs.filterMap Visit.leaf?).flatMap text) := by
    rw [← text_eq, ← text_eq]
    unfold leaves
    simp only [hwalk, List.filterMap_append, List.flatMap_append, List.append_assoc]
  have hsize : p.stop - p.start = byteSize p.text := by
    rw [stop, Tree.size_eq_byteSize, Nat.add_sub_cancel_left]
    rfl
  rw [hroot, Nat.zero_add] at hstart
  simp only [Span.slice?, span, hsize]
  rw [hstart, htext, cutBytes_byteSize]
  simp [cutBytes_byteSize]

/-! ## Answers of a place -/

theorem span_eq (p : Place) : p.span = match p.firstLeaf?, p.lastLeaf? with
    | some first, some last => ⟨first.start, last.stop⟩
    | _, _ => .point p.start := by
  have htiles := p.tiles_leaves
  unfold firstLeaf? lastLeaf?
  cases hfirst : p.leaves.head? with
  | none =>
    rw [List.head?_eq_none_iff.mp hfirst] at htiles
    have hempty : p.start = p.stop := htiles
    simp [span, Span.point, ← hempty]
  | some first =>
    cases hlast : p.leaves.getLast? with
    | none => simp [List.getLast?_eq_none_iff.mp hlast] at hfirst
    | some last =>
      have hstart := htiles.start_head (by rw [List.head?_map, hfirst]; rfl)
      have hstop := htiles.stop_getLast (by rw [List.getLast?_map, hlast]; rfl)
      simp only [span] at hstart hstop ⊢
      rw [← hstart, ← hstop]

theorem right_of_child {p c : Place} {i : Nat} (h : p.children[i]? = some c) :
    c.right? = p.children[i + 1]? := by
  obtain ⟨hparent, hindex⟩ := parent_of_child h
  simp [right?, rights, siblings, hparent, hindex]

theorem left_of_child {p c : Place} {i : Nat} (h : p.children[i]? = some c) :
    c.left? = if i = 0 then none else p.children[i - 1]? := by
  obtain ⟨hparent, hindex⟩ := parent_of_child h
  obtain ⟨hi, -⟩ := List.getElem?_eq_some_iff.mp h
  have hbefore : i - 1 < p.children.length := by omega
  simp [left?, lefts, siblings, hparent, hindex, List.getLast?_take, List.getElem?_eq_getElem hbefore]

theorem right_left {p c d : Place} {i : Nat} (h : p.children[i]? = some c) (hd : c.right? = some d) :
    d.left? = some c := by
  rw [right_of_child h] at hd
  rw [left_of_child hd]
  simpa using h

theorem left_right {p c d : Place} {i : Nat} (h : p.children[i]? = some c) (hd : c.left? = some d) :
    d.right? = some c := by
  rw [left_of_child h] at hd
  split at hd
  · cases hd
  · rw [right_of_child hd, show i - 1 + 1 = i by omega]
    exact h

theorem mem_elements_trans {p q r : Place} (h : q ∈ p.elements) (h' : r ∈ q.elements) : r ∈ p.elements := by
  obtain ⟨us, vs, hwalk, -⟩ := walk_infix h
  unfold elements
  rw [hwalk, List.filterMap_append, List.filterMap_append]
  exact List.mem_append_left _ (List.mem_append_right _ h')

theorem leaves_eq_take_drop {p q : Place} (h : q ∈ p.elements) :
    q.leaves = (p.leaves.drop (q.leavesBefore - p.leavesBefore)).take q.tree.leafCount := by
  obtain ⟨us, vs, hwalk, hcount, -⟩ := walk_infix h
  have hleaves : p.leaves = us.filterMap Visit.leaf? ++ (q.leaves ++ vs.filterMap Visit.leaf?) := by
    unfold leaves
    rw [hwalk, List.filterMap_append, List.filterMap_append, List.append_assoc]
  rw [hcount, Nat.add_sub_cancel_left, hleaves, List.drop_left, ← q.length_leaves, List.take_left]

theorem child_of_parent {root p q : Place} (hroot : root.above = []) (h : p ∈ root.elements)
    (hq : p.parent? = some q) : q ∈ root.nodes ∧ p ∈ q.children := by
  rcases eq_or_child h with rfl | ⟨r, hr, i, hi⟩
  · simp [parent?, hroot] at hq
  · rw [(parent_of_child hi).1] at hq
    cases hq
    exact ⟨hr, List.mem_of_getElem? hi⟩

end Place

end Dofile
