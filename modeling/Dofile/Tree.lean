import Dofile.Kind
import Dofile.Text.Span

/-!
# Syntax trees

A syntax tree keeps its text: each leaf holds the characters it stands for, and
the text of a tree is that of its leaves in order. No offset is stored. Where an
element stands follows from the sizes of what stands before it.
-/

namespace Dofile

inductive Tree where
  | leaf (kind : Kind) (text : List Char)
  | node (kind : Kind) (children : List Tree)
  deriving Inhabited

namespace Tree

mutual

def decEq : (a b : Tree) → Decidable (a = b)
  | .leaf k t, .leaf k' t' =>
    if h : k = k' ∧ t = t' then .isTrue (by simp [h]) else .isFalse (by simpa using h)
  | .node k ts, .node k' ts' =>
    if h : k = k' then
      match decEqAll ts ts' with
      | .isTrue h' => .isTrue (by simp [h, h'])
      | .isFalse h' => .isFalse (by simp [h'])
    else .isFalse (by simp [h])
  | .leaf .., .node .. => .isFalse (by simp)
  | .node .., .leaf .. => .isFalse (by simp)

def decEqAll : (as bs : List Tree) → Decidable (as = bs)
  | [], [] => .isTrue rfl
  | a :: as, b :: bs =>
    match decEq a b, decEqAll as bs with
    | .isTrue h, .isTrue h' => .isTrue (by simp [h, h'])
    | .isFalse h, _ => .isFalse (by simp [h])
    | _, .isFalse h => .isFalse (by simp [h])
  | [], _ :: _ => .isFalse (by simp)
  | _ :: _, [] => .isFalse (by simp)

end

instance : DecidableEq Tree := decEq

def kind : Tree → Kind
  | .leaf k _ => k
  | .node k _ => k

def isLeaf : Tree → Bool
  | .leaf .. => true
  | .node .. => false

mutual

def text : Tree → List Char
  | .leaf _ t => t
  | .node _ ts => textAll ts

def textAll : List Tree → List Char
  | [] => []
  | t :: ts => t.text ++ textAll ts

end

mutual

def size : Tree → Nat
  | .leaf _ t => byteSize t
  | .node _ ts => sizeAll ts

def sizeAll : List Tree → Nat
  | [] => 0
  | t :: ts => t.size + sizeAll ts

end

mutual

def nodeCount : Tree → Nat
  | .leaf .. => 0
  | .node _ ts => nodeCountAll ts + 1

def nodeCountAll : List Tree → Nat
  | [] => 0
  | t :: ts => t.nodeCount + nodeCountAll ts

end

mutual

def leafCount : Tree → Nat
  | .leaf .. => 1
  | .node _ ts => leafCountAll ts

def leafCountAll : List Tree → Nat
  | [] => 0
  | t :: ts => t.leafCount + leafCountAll ts

end

mutual

theorem size_eq_byteSize : ∀ t : Tree, t.size = byteSize t.text
  | .leaf _ _ => by simp [size, text]
  | .node _ ts => by simp [size, text, sizeAll_eq_byteSize ts]

theorem sizeAll_eq_byteSize : ∀ ts : List Tree, sizeAll ts = byteSize (textAll ts)
  | [] => rfl
  | t :: ts => by simp [sizeAll, textAll, size_eq_byteSize t, sizeAll_eq_byteSize ts]

end

def summary (t : Tree) : String :=
  s!"SyntaxTree \x7b text_len: {t.size}, nodes: {t.nodeCount}, tokens: {t.leafCount} \x7d"

end Tree

end Dofile
