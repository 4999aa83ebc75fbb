import Dofile.Proofs.Build
import Dofile.Proofs.Records
import Dofile.Tree.Store.Writer

/-!
# What a writer writes

What a call writes is said here without the checks before it. The calls of an element write
its record and those of all below it, and enter it among the children of the node around it.
So the calls of a tree write the store of the tree.
-/

namespace Dofile

section
variable {α : Type} (xs ys : Array α) (f g : α → α) (i : Nat)

theorem modify_append (h : i < xs.size) : (xs ++ ys).modify i f = xs.modify i f ++ ys := by
  ext j hj hj'
  · simp
  · grind

theorem modify_push (x : α) : (xs.push x).modify xs.size f = xs.push (f x) := by
  ext j hj hj'
  · simp
  · grind

theorem modify_id : xs.modify i id = xs := by
  ext j hj hj'
  · simp
  · grind

theorem modify_modify : (xs.modify i f).modify i g = xs.modify i (g ∘ f) := by
  ext j hj hj'
  · simp
  · grind

end

namespace Writer

open Builder (Call)
open Store

def adoptAll (children : List Ref) (record : NodeRecord) : NodeRecord :=
  { record with children := record.children ++ children.toArray }

def perform (w : Writer) : Call → Writer
  | .enter kind => w.entered kind
  | .leaf kind length => w.taken kind length
  | .blanks length => if length = 0 then w else w.taken .whitespace length
  | .leave => w.left

def written (text : List Char) (calls : List Call) : Writer := calls.foldl perform (ofText text)

theorem foldl_shown (w : Writer) (calls : List Call) :
    (calls.flatMap Call.shown).foldl perform w = calls.foldl perform w := by
  induction calls generalizing w with
  | nil => rfl
  | cons call calls ih =>
    have hshown : call.shown.foldl perform w = w.perform call := by
      cases call with
      | blanks length => by_cases hzero : length = 0 <;> simp [Call.shown, perform, hzero]
      | _ => rfl
    rw [List.flatMap_cons, List.foldl_append, hshown, ih]
    rfl

/-! ## Growing a writer -/

/-- Elements with all below them, as the next children of the innermost open node. -/
def grow (w : Writer) (ps : List Place) : Writer :=
  { w with
    nodes := w.onInnermost (adoptAll (ps.map Place.ref)) ++ ((ps.flatMap Place.nodes).map Place.nodeRecord).toArray
    leaves := w.leaves ++ ((ps.flatMap Place.leaves).map Place.leafRecord).toArray
    offset := w.offset + Tree.sizeAll (ps.map Place.tree) }

def HasRecords (w : Writer) : Prop := ∀ node ∈ w.opened.head?, node < w.nodes.size

/-- Whether an element is what a writer is to write next. -/
structure Before (w : Writer) (p : Place) : Prop where
  records : w.HasRecords
  parent : w.opened.head? = p.parentNumber?
  nodes : w.nodes.size = p.nodesBefore
  leaves : w.leaves.size = p.leavesBefore
  offset : w.offset = p.start
  index : w.siblings = p.index

section
variable {w : Writer} {p c : Place}

@[simp] theorem size_onInnermost (w : Writer) (f : NodeRecord → NodeRecord) :
    (w.onInnermost f).size = w.nodes.size := by
  unfold onInnermost
  split <;> simp

@[simp] theorem adoptAll_nil : adoptAll [] = id := by
  funext record
  simp [adoptAll]

@[simp] theorem adoptAll_singleton (r : Ref) : adoptAll [r] = adopt r := by
  funext record
  simp [adoptAll, adopt]

theorem adoptAll_adoptAll (rs rs' : List Ref) : adoptAll rs' ∘ adoptAll rs = adoptAll (rs ++ rs') := by
  funext record
  simp [adoptAll]

@[simp] theorem grow_nil (w : Writer) : w.grow [] = w := by
  obtain ⟨text, nodes, leaves, opened, offset⟩ := w
  cases opened <;> simp [grow, onInnermost, Tree.sizeAll, modify_id]

theorem grow_grow (h : w.HasRecords) (ps qs : List Place) : (w.grow ps).grow qs = w.grow (ps ++ qs) := by
  obtain ⟨text, nodes, leaves, opened, offset⟩ := w
  cases opened with
  | nil => simp [grow, onInnermost, Tree.sizeAll_append, Nat.add_assoc]
  | cons node opened =>
    have hnode : node < (nodes.modify node (adoptAll (ps.map Place.ref))).size := by
      simpa using h node rfl
    simp [grow, onInnermost, Tree.sizeAll_append, Nat.add_assoc, modify_append _ _ _ _ hnode, modify_modify,
      adoptAll_adoptAll]

/-! ## Elements -/

theorem hasRecords_entered (w : Writer) (kind : Kind) : (w.entered kind).HasRecords := by
  simp [HasRecords, entered]

/-- What is written within a node that was entered goes into its record and behind it. -/
theorem nodes_grow_entered (w : Writer) (kind : Kind) (ps : List Place) :
    ((w.entered kind).grow ps).nodes = (w.onInnermost (adopt (.node w.nodes.size))).push
      (adoptAll (ps.map Place.ref) (w.fresh kind)) ++ ((ps.flatMap Place.nodes).map Place.nodeRecord).toArray := by
  have hmodify := modify_push (w.onInnermost (adopt (.node w.nodes.size))) (adoptAll (ps.map Place.ref)) (w.fresh kind)
  rw [size_onInnermost] at hmodify
  rw [← hmodify]
  rfl

theorem siblings_grow_entered (w : Writer) (kind : Kind) (ps : List Place) :
    ((w.entered kind).grow ps).siblings = ps.length := by
  have hrecord : ((w.entered kind).grow ps).nodes[w.nodes.size]? = some (adoptAll (ps.map Place.ref) (w.fresh kind)) := by
    rw [nodes_grow_entered, Array.getElem?_append_left (by simp), Array.getElem?_push]
    simp
  have hopened : ((w.entered kind).grow ps).opened = w.nodes.size :: w.opened := rfl
  simp only [siblings, hopened, childCount, hrecord]
  simp [adoptAll, fresh]

/-- A child is what is to be written next once its node is entered and all before it are written. -/
theorem Before.child (h : Before w p) {kind : Kind} {i : Nat} (hc : p.children[i]? = some c) :
    Before ((w.entered kind).grow (p.children.take i)) c := by
  obtain ⟨hi, -⟩ := List.getElem?_eq_some_iff.mp hc
  refine ⟨?_, ?_, ?_, ?_, ?_, ?_⟩
  · simp [HasRecords, grow, entered]; omega
  · rw [parentNumber_of_child hc, ← h.nodes]
    rfl
  · simp only [grow, entered, Array.size_append, size_onInnermost, Array.size_push, List.size_toArray, List.length_map,
      Place.length_flatMap_nodes, h.nodes, Place.nodesBefore_of_child hc]
  · simp only [grow, entered, Array.size_append, List.size_toArray, List.length_map, Place.length_flatMap_leaves,
      h.leaves, Place.leavesBefore_of_child hc]
  · simp only [grow, entered, h.offset, Place.start_of_child hc]
  · rw [siblings_grow_entered, (Place.parent_of_child hc).2, List.length_take, Nat.min_eq_left (Nat.le_of_lt hi)]

theorem nodes_left_grow_entered (w : Writer) (kind : Kind) (ps : List Place) :
    ((w.entered kind).grow ps).left.nodes = (w.onInnermost (adopt (.node w.nodes.size))).push
      (complete (w.offset + Tree.sizeAll (ps.map Place.tree)) (w.leaves.size + Tree.leafCountAll (ps.map Place.tree))
        (adoptAll (ps.map Place.ref) (w.fresh kind))) ++ ((ps.flatMap Place.nodes).map Place.nodeRecord).toArray := by
  have hleaves : ((w.entered kind).grow ps).leaves.size = w.leaves.size + Tree.leafCountAll (ps.map Place.tree) := by
    rw [← Place.length_flatMap_leaves]
    simp [grow, entered]
  have hleft : ((w.entered kind).grow ps).left.nodes = ((w.entered kind).grow ps).nodes.modify w.nodes.size
    (complete (w.offset + Tree.sizeAll (ps.map Place.tree)) ((w.entered kind).grow ps).leaves.size) := rfl
  have hsize : w.nodes.size = (w.onInnermost (adopt (.node w.nodes.size))).size := (size_onInnermost ..).symm
  rw [hleft, hleaves, nodes_grow_entered, modify_append _ _ _ _ (by simp)]
  conv => lhs; arg 1; arg 2; rw [hsize]
  rw [modify_push]

/-- A node is complete when it is left. -/
theorem left_grow (h : Before w p) {ts : List Tree} (hp : p.tree = .node p.kind ts) :
    ((w.entered p.kind).grow p.children).left = w.grow [p] := by
  have hleaf : p.isLeaf = false := by rw [Place.isLeaf, hp]; rfl
  have hnodes := nodes_left_grow_entered w p.kind p.children
  have hrecord : complete (w.offset + Tree.sizeAll ts) (w.leaves.size + Tree.leafCountAll ts)
      (adoptAll (p.children.map Place.ref) (w.fresh p.kind)) = p.nodeRecord := by
    simp [complete, adoptAll, fresh, Place.nodeRecord, Place.span, Place.stop, Span.point, hp, Tree.size,
      Tree.leafCount, h.parent, h.leaves, h.offset, h.index]
  rw [Place.map_tree_of_node hp, hrecord, h.nodes, ← Place.ref_node hleaf] at hnodes
  have hgrow : ((w.entered p.kind).grow p.children).left =
      { w.grow [p] with nodes := ((w.entered p.kind).grow p.children).left.nodes } := by
    simp [left, grow, entered, Place.map_tree_of_node hp, hp, Tree.size, Tree.sizeAll, Place.leaves_node hleaf]
  rw [hgrow, hnodes]
  simp [grow, Place.nodes_eq p, hleaf]

theorem callsAll_eq (ts : List Tree) : Tree.callsAll ts = ts.flatMap Tree.calls := by
  induction ts with
  | nil => rfl
  | cons t ts ih => rw [Tree.callsAll, ih, List.flatMap_cons]

/-- The calls of an element write it and all below it. -/
theorem foldl_calls (h : Before w p) : p.tree.calls.foldl perform w = w.grow [p] := by
  induction p using Place.induct generalizing w with
  | step p ih =>
    cases htree : p.tree with
    | leaf kind text =>
      have hleaf : p.isLeaf = true := by rw [Place.isLeaf, htree]; rfl
      have hkind : p.kind = kind := by rw [Place.kind, htree]; rfl
      simp [Tree.calls, perform, taken, grow, Place.nodes_eq p, Place.leaves_leaf hleaf, (Place.walk_leaf hleaf).2,
        hleaf, Place.ref_leaf hleaf, Place.leafRecord, Place.span, Place.stop, htree, hkind, Tree.size, Tree.sizeAll,
        h.leaves, h.parent, h.offset, h.index]
    | node kind ts =>
      have hkind : p.kind = kind := by rw [Place.kind, htree]; rfl
      -- the children are written one after the other, each behind those before it
      have hchildren : ∀ i ≤ p.children.length, (((p.children.take i).map Place.tree).flatMap Tree.calls).foldl perform
          (w.entered kind) = (w.entered kind).grow (p.children.take i) := by
        intro i hi
        induction i with
        | zero => simp
        | succ i ihi =>
          have hc := List.getElem?_eq_getElem hi
          rw [List.take_add_one, hc, Option.toList_some, List.map_append, List.flatMap_append, List.foldl_append,
            ihi (Nat.le_of_succ_le hi), ← grow_grow (hasRecords_entered w kind)]
          simpa using ih _ (List.getElem_mem hi) (h.child hc)
      have hall := hchildren p.children.length (Nat.le_refl _)
      rw [List.take_length, Place.map_tree_of_node htree] at hall
      rw [Tree.calls, callsAll_eq, List.foldl_cons, List.foldl_append]
      change [Call.leave].foldl perform ((ts.flatMap Tree.calls).foldl perform (w.entered kind)) = _
      rw [hall, ← hkind]
      exact left_grow h (by rw [hkind, htree])

end

/-- What the calls of a tree write are the records of the tree. -/
theorem written_of_calls (text : List Char) {calls : List Call} {tree : Tree}
    (hcalls : tree.calls = calls.flatMap Call.shown) :
    (written text calls).nodes = (ofTree tree).nodes ∧ (written text calls).leaves = (ofTree tree).leaves := by
  have hbefore : Before (ofText text) (Place.ofRoot tree) := by
    refine ⟨?_, rfl, rfl, rfl, rfl, rfl⟩
    simp [HasRecords, ofText]
  have hwritten : written text calls = (ofText text).grow [.ofRoot tree] := by
    rw [written, ← foldl_shown, ← hcalls]
    exact foldl_calls hbefore
  rw [hwritten]
  simp [grow, onInnermost, ofText, ofTree]

end Writer

end Dofile
