import Dofile.Tree

/-!
# Places in a tree

A place is an element of a tree together with the way up from it: for each
ancestor its kind and the elements before and after the way. Every place can
therefore be asked for its parent, its siblings and its offset. The elements of
a tree are the places that `walk` visits.
-/

namespace Dofile

/-- One step of the way up: the parent without the child that the way leads through. -/
structure Crumb where
  kind : Kind
  /-- The offset of the parent. -/
  start : Nat
  /-- The elements before the child, the nearest first. -/
  before : List Tree
  after : List Tree
  deriving DecidableEq

structure Place where
  tree : Tree
  start : Nat
  /-- The way up, the parent first. -/
  above : List Crumb
  deriving DecidableEq

inductive Visit where
  | enter (node : Place)
  | leaf (leaf : Place)
  | leave (node : Place)
  deriving DecidableEq

namespace Crumb

def plug (c : Crumb) (child : Tree) : Tree := .node c.kind (c.before.reverse ++ child :: c.after)

end Crumb

namespace Visit

def element? : Visit → Option Place
  | enter p | leaf p => some p
  | leave _ => none

def leaf? : Visit → Option Place
  | leaf p => some p
  | _ => none

def node? : Visit → Option Place
  | enter p => some p
  | _ => none

end Visit

namespace Place

def ofRoot (t : Tree) : Place := ⟨t, 0, []⟩

def kind (p : Place) : Kind := p.tree.kind

def isLeaf (p : Place) : Bool := p.tree.isLeaf

def isRoot (p : Place) : Bool := p.above.isEmpty

def depth (p : Place) : Nat := p.above.length

def text (p : Place) : List Char := p.tree.text

def stop (p : Place) : Nat := p.start + p.tree.size

def span (p : Place) : Span := ⟨p.start, p.stop⟩

def summary (p : Place) : String := p.kind.tag ++ "@" ++ p.span.render

/-! ## Up, down and sideways -/

def parent? (p : Place) : Option Place :=
  match p.above with
  | [] => none
  | c :: above => some ⟨c.plug p.tree, c.start, above⟩

def parentsOf (t : Tree) : List Crumb → List Place
  | [] => []
  | c :: above => ⟨c.plug t, c.start, above⟩ :: parentsOf (c.plug t) above

def parents (p : Place) : List Place := parentsOf p.tree p.above

def parentKinds (p : Place) : List Kind := p.above.map Crumb.kind

/-- The places of children that follow the elements `before`, the first of them at
the offset `pos`. -/
def placesFrom (kind : Kind) (start : Nat) (above : List Crumb) (pos : Nat) (before : List Tree) :
    List Tree → List Place
  | [] => []
  | t :: ts =>
    ⟨t, pos, ⟨kind, start, before, ts⟩ :: above⟩ ::
      placesFrom kind start above (pos + t.size) (t :: before) ts

def children (p : Place) : List Place :=
  match p.tree with
  | .leaf .. => []
  | .node k ts => placesFrom k p.start p.above p.start [] ts

def childNodes (p : Place) : List Place := p.children.filter (!·.isLeaf)

def childLeaves (p : Place) : List Place := p.children.filter (·.isLeaf)

def childNode? (p : Place) (k : Kind) : Option Place := p.childNodes.find? (·.kind == k)

def childLeaf? (p : Place) (k : Kind) : Option Place := p.childLeaves.find? (·.kind == k)

def index (p : Place) : Nat :=
  match p.above with
  | [] => 0
  | c :: _ => c.before.length

def siblings (p : Place) : List Place :=
  match p.parent? with
  | none => []
  | some parent => parent.children

def rights (p : Place) : List Place := p.siblings.drop (p.index + 1)

def lefts (p : Place) : List Place := (p.siblings.take p.index).reverse

def right? (p : Place) : Option Place := p.rights.head?

def left? (p : Place) : Option Place := p.lefts.head?

def nextNode? (p : Place) : Option Place := p.rights.find? (!·.isLeaf)

/-! ## Walks -/

mutual

def walkTree (start : Nat) (above : List Crumb) : Tree → List Visit
  | .leaf k t => [.leaf ⟨.leaf k t, start, above⟩]
  | .node k ts =>
    .enter ⟨.node k ts, start, above⟩ ::
      (walkTrees k start above start [] ts ++ [.leave ⟨.node k ts, start, above⟩])

def walkTrees (kind : Kind) (start : Nat) (above : List Crumb) (pos : Nat) (before : List Tree) :
    List Tree → List Visit
  | [] => []
  | t :: ts =>
    walkTree pos (⟨kind, start, before, ts⟩ :: above) t ++
      walkTrees kind start above (pos + t.size) (t :: before) ts

end

/-- The walk below an element: a node is entered, its children are walked in order, and
it is left. -/
def walk (p : Place) : List Visit := walkTree p.start p.above p.tree

/-- The element and all below it, each before those below itself. -/
def elements (p : Place) : List Place := p.walk.filterMap Visit.element?

def nodes (p : Place) : List Place := p.walk.filterMap Visit.node?

def leaves (p : Place) : List Place := p.walk.filterMap Visit.leaf?

def firstLeaf? (p : Place) : Option Place := p.leaves.head?

def lastLeaf? (p : Place) : Option Place := p.leaves.getLast?

def nextLeaf? (p : Place) : Option Place :=
  (p :: p.parents).findSome? fun q => q.rights.findSome? firstLeaf?

def previousLeaf? (p : Place) : Option Place :=
  (p :: p.parents).findSome? fun q => q.lefts.findSome? lastLeaf?

/-! ## Without the blanks at the ends -/

def trimmedLeaves (p : Place) : List Place :=
  ((p.leaves.dropWhile (·.kind.isTrivia)).reverse.dropWhile (·.kind.isTrivia)).reverse

/-- The span without blanks at either end. Where all is blank it is empty. -/
def trimmedSpan (p : Place) : Span :=
  match p.trimmedLeaves.head?, p.trimmedLeaves.getLast? with
  | some first, some last => ⟨first.start, last.stop⟩
  | _, _ => .point p.start

def trimmedText (p : Place) : List Char := p.trimmedLeaves.flatMap text

/-! ## Leaves at an offset -/

/-- The leaves that an offset touches: two where it lies between them. -/
inductive Touch where
  | none
  | one (leaf : Place)
  | between (left right : Place)
  deriving DecidableEq

namespace Touch

def toList : Touch → List Place
  | none => []
  | one p => [p]
  | between l r => [l, r]

def left? : Touch → Option Place
  | none => .none
  | one p => some p
  | between l _ => some l

def right? : Touch → Option Place
  | none => .none
  | one p => some p
  | between _ r => some r

/-- The leaf with the higher score. The right one wins a tie. -/
def best? (score : Kind → Nat) : Touch → Option Place
  | none => .none
  | one p => some p
  | between l r => some (if score l.kind ≤ score r.kind then r else l)

end Touch

def leavesAt (p : Place) (offset : Nat) : Touch :=
  if p.start ≤ offset ∧ offset ≤ p.stop then
    match p.leaves.dropWhile (·.stop < offset) with
    | [] => .none
    | [leaf] => .one leaf
    | left :: right :: _ => if left.stop = offset then .between left right else .one left
  else .none

end Place

end Dofile
