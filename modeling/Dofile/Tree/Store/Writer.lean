import Dofile.Tree.Builder
import Dofile.Tree.Store

/-!
# Writing stores

A writer takes the calls that build a tree and writes the arrays of a store. The record of
a node is written when the node is entered and is completed with its children and when it
is left. Numbers of elements have 32 bits, and a writer refuses a call that needs more.
-/

namespace Dofile

structure Writer where
  text : List Char
  nodes : Array Store.NodeRecord
  leaves : Array Store.LeafRecord
  /-- The numbers of the open nodes, the innermost first. -/
  opened : List Nat
  offset : Nat
  deriving DecidableEq

namespace Writer

open Builder (Error Call)
open Store (NodeRecord Ref)

def ofText (text : List Char) : Writer := ⟨text, #[], #[], [], 0⟩

def childCount (w : Writer) (node : Nat) : Nat :=
  match w.nodes[node]? with
  | some record => record.children.size
  | none => 0

/-- The number of children that the innermost open node has so far. -/
def siblings (w : Writer) : Nat :=
  match w.opened with
  | [] => 0
  | node :: _ => w.childCount node

/-! ## Records -/

/-- The nodes with a change of the innermost open one. -/
def onInnermost (w : Writer) (f : NodeRecord → NodeRecord) : Array NodeRecord :=
  match w.opened with
  | [] => w.nodes
  | node :: _ => w.nodes.modify node f

def adopt (child : Ref) (record : NodeRecord) : NodeRecord :=
  { record with children := record.children.push child }

def complete (offset leafEnd : Nat) (record : NodeRecord) : NodeRecord :=
  { record with span := ⟨record.span.start, offset⟩, leafEnd }

def fresh (w : Writer) (kind : Kind) : NodeRecord :=
  ⟨kind, w.opened.head?, w.siblings, #[], .point w.offset, w.leaves.size, w.leaves.size⟩

def entered (w : Writer) (kind : Kind) : Writer :=
  { w with
    nodes := (w.onInnermost (adopt (.node w.nodes.size))).push (w.fresh kind)
    opened := w.nodes.size :: w.opened }

def left (w : Writer) : Writer :=
  { w with nodes := w.onInnermost (complete w.offset w.leaves.size), opened := w.opened.tail }

def taken (w : Writer) (kind : Kind) (length : Nat) : Writer :=
  { w with
    nodes := w.onInnermost (adopt (.leaf w.leaves.size))
    leaves := w.leaves.push ⟨kind, ⟨w.offset, w.offset + length⟩, w.opened.head?.getD 0, w.siblings⟩
    offset := w.offset + length }

/-! ## Calls -/

def ensure (holds : Bool) (e : Error) : Except Error Unit := if holds then .ok () else .error e

/-- So many elements have to leave a number for the next one. -/
def ensureNumber (count : Nat) : Except Error Unit := ensure (count ≤ maxOffset) .tooManyElements

def enter (w : Writer) (kind : Kind) : Except Error Writer := do
  ensure kind.isNode (.tokenKind kind)
  ensureNumber w.nodes.size
  if w.opened.isEmpty then ensure w.nodes.isEmpty .secondRoot else ensureNumber w.siblings
  ensureNumber w.leaves.size
  return w.entered kind

def leave (w : Writer) : Except Error Writer := do
  ensure (!w.opened.isEmpty) .noOpenNode
  ensureNumber w.leaves.size
  return w.left

def leaf (w : Writer) (kind : Kind) (length : Nat) : Except Error Writer := do
  ensure (!kind.isNode) (.nodeKind kind)
  ensure (!w.opened.isEmpty) .noOpenNode
  let span : Span := ⟨w.offset, w.offset + length⟩
  ensure (span.stop ≤ maxOffset) .offsetOverflow
  ensure (span.slice? w.text).isSome (.offText kind span)
  ensureNumber w.leaves.size
  ensureNumber w.siblings
  return w.taken kind length

def blanks (w : Writer) (length : Nat) : Except Error Writer :=
  if length = 0 then .ok w else w.leaf .whitespace length

def finish (w : Writer) : Except Error Store := do
  ensure w.opened.isEmpty (.unfinishedNodes w.opened.length)
  ensure (!w.nodes.isEmpty) .noRoot
  ensure (w.offset = byteSize w.text) (.uncoveredText w.offset (byteSize w.text))
  return ⟨w.text, w.nodes, w.leaves⟩

def apply (w : Writer) : Call → Except Error Writer
  | .enter kind => w.enter kind
  | .leaf kind length => w.leaf kind length
  | .blanks length => w.blanks length
  | .leave => w.leave

def build (text : List Char) (calls : List Call) : Except Error Store := do
  (← calls.foldlM apply (ofText text)).finish

end Writer

end Dofile
