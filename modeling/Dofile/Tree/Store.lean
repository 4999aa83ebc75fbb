import Dofile.Kind
import Dofile.Text.Span

/-!
# Trees in arrays

A store keeps a tree in two arrays, one of its nodes, each before those below it, and one
of its leaves in their order. Elements are told by their numbers in these. A record says
where its element stands: below which parent, as which of its children, over which span.
The leaves below a node are a run of all leaves, so a node keeps the ends of its run.
-/

namespace Dofile

namespace Store

inductive Ref where
  | node (number : Nat)
  | leaf (number : Nat)
  deriving DecidableEq

structure NodeRecord where
  kind : Kind
  parent? : Option Nat
  /-- The number among the children of the parent. -/
  index : Nat
  children : Array Ref
  span : Span
  firstLeaf : Nat
  /-- The number of the first leaf behind the run. -/
  leafEnd : Nat
  deriving DecidableEq

structure LeafRecord where
  kind : Kind
  span : Span
  parent : Nat
  index : Nat
  deriving DecidableEq

end Store

structure Store where
  text : List Char
  nodes : Array Store.NodeRecord
  leaves : Array Store.LeafRecord
  deriving DecidableEq

namespace Store

def kind? (s : Store) : Ref → Option Kind
  | .node n => s.nodes[n]?.map NodeRecord.kind
  | .leaf l => s.leaves[l]?.map LeafRecord.kind

def span? (s : Store) : Ref → Option Span
  | .node n => s.nodes[n]?.map NodeRecord.span
  | .leaf l => s.leaves[l]?.map LeafRecord.span

def text? (s : Store) (r : Ref) : Option (List Char) := do (← s.span? r).slice? s.text

def parent? (s : Store) : Ref → Option Nat
  | .node n => do (← s.nodes[n]?).parent?
  | .leaf l => s.leaves[l]?.map LeafRecord.parent

def index? (s : Store) : Ref → Option Nat
  | .node n => s.nodes[n]?.map NodeRecord.index
  | .leaf l => s.leaves[l]?.map LeafRecord.index

def children (s : Store) (node : Nat) : List Ref :=
  match s.nodes[node]? with
  | some record => record.children.toList
  | none => []

def childAt? (s : Store) (node index : Nat) : Option Ref := (s.children node)[index]?

def leavesOf (s : Store) (node : Nat) : List Nat :=
  match s.nodes[node]? with
  | some record => List.range' record.firstLeaf (record.leafEnd - record.firstLeaf)
  | none => []

def firstLeaf? (s : Store) (node : Nat) : Option Nat := (s.leavesOf node).head?

def lastLeaf? (s : Store) (node : Nat) : Option Nat := (s.leavesOf node).getLast?

/-- The element behind a leaf, below the same parent. -/
def right? (s : Store) (leaf : Nat) : Option Ref := do
  let record ← s.leaves[leaf]?
  s.childAt? record.parent (record.index + 1)

def left? (s : Store) (leaf : Nat) : Option Ref := do
  let record ← s.leaves[leaf]?
  match record.index with
  | 0 => none
  | index + 1 => s.childAt? record.parent index

/-! ## Walks -/

inductive Visit where
  | enter (node : Nat)
  | leaf (leaf : Nat)
  | leave (node : Nat)
  deriving DecidableEq

def Visit.leaf? : Visit → Option Nat
  | .leaf l => some l
  | _ => none

structure Walk where
  /-- The node to begin with, as long as it has not been entered. -/
  first? : Option Nat
  /-- The nodes entered and not left, the innermost first, with those of their children
  that are still to come. -/
  stack : List (Nat × List Ref)
  deriving DecidableEq

namespace Walk

def ofNode (node : Nat) : Walk := ⟨some node, []⟩

def next? (s : Store) (w : Walk) : Option (Visit × Walk) :=
  match w.stack with
  | [] => w.first?.map fun first => (.enter first, ⟨none, [(first, s.children first)]⟩)
  | (node, []) :: outer => some (.leave node, { w with stack := outer })
  | (node, .node child :: rest) :: outer =>
    some (.enter child, { w with stack := (child, s.children child) :: (node, rest) :: outer })
  | (node, .leaf leaf :: rest) :: outer => some (.leaf leaf, { w with stack := (node, rest) :: outer })

/-- Whether a walk comes by some visits and ends behind them. -/
inductive Yields (s : Store) : Walk → List Visit → Prop
  | done {w : Walk} (h : w.next? s = none) : Yields s w []
  | visit {w w' : Walk} {v : Visit} {vs : List Visit} (h : w.next? s = some (v, w')) (h' : Yields s w' vs) :
    Yields s w (v :: vs)

end Walk

/-! ## Leaves at an offset -/

/-- The number of elements before the first that fails a test, if none behind that passes it.
The place is searched between two others by halves. -/
def partitionPoint {α : Type} (test : α → Bool) (xs : Array α) : Nat := go 0 xs.size
where
  go (low high : Nat) : Nat :=
    if low < high then
      let middle := (low + high) / 2
      if xs[middle]?.any test then go (middle + 1) high else go low middle
    else low
  termination_by high - low

inductive Touch where
  | none
  | one (leaf : Nat)
  | between (left right : Nat)
  deriving DecidableEq

def leavesAt (s : Store) (node offset : Nat) : Touch :=
  match s.nodes[node]? with
  | .none => .none
  | some record =>
    if record.span.start ≤ offset ∧ offset ≤ record.span.stop then
      let run := s.leaves.extract record.firstLeaf record.leafEnd
      let point := partitionPoint (fun leaf => leaf.span.stop < offset) run
      match run[point]? with
      | .none => .none
      | some left =>
        if left.span.stop = offset ∧ point + 1 < run.size then
          .between (record.firstLeaf + point) (record.firstLeaf + point + 1)
        else .one (record.firstLeaf + point)
    else .none

end Store

end Dofile
