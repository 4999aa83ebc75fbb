import Dofile.Proofs.Script
import Dofile.Tree.Place

/-!
# Leaves

The leaves of the tree of a script are its tokens in their order, each behind a
leaf of its blanks if it has any.
-/

namespace Dofile

namespace Tree

mutual

def leaves : Tree → List Tree
  | .leaf kind text => [.leaf kind text]
  | .node _ ts => leavesAll ts

def leavesAll : List Tree → List Tree
  | [] => []
  | t :: ts => t.leaves ++ leavesAll ts

end

theorem leavesAll_append (ts us : List Tree) : leavesAll (ts ++ us) = leavesAll ts ++ leavesAll us := by
  induction ts with
  | nil => simp [leavesAll]
  | cons t ts ih => simp [leavesAll, ih]

mutual

theorem flatMap_text_leaves : ∀ t : Tree, t.leaves.flatMap text = t.text
  | .leaf _ _ => by simp [leaves, text]
  | .node _ ts => by
    rw [leaves, text]
    exact flatMap_text_leavesAll ts

theorem flatMap_text_leavesAll : ∀ ts : List Tree, (leavesAll ts).flatMap text = textAll ts
  | [] => rfl
  | t :: ts => by
    rw [leavesAll, textAll, List.flatMap_append, flatMap_text_leaves t, flatMap_text_leavesAll ts]

end

end Tree

namespace Place

mutual

theorem map_tree_walkTree (start : Nat) (above : List Crumb) : ∀ t : Tree,
    ((walkTree start above t).filterMap Visit.leaf?).map tree = t.leaves
  | .leaf _ _ => by simp [walkTree, Visit.leaf?, Tree.leaves]
  | .node kind ts => by
    simp only [walkTree, List.filterMap_cons, Visit.leaf?, List.filterMap_append, List.filterMap_nil,
      List.append_nil, Tree.leaves]
    exact map_tree_walkTrees kind start above start [] ts

theorem map_tree_walkTrees (kind : Kind) (start : Nat) (above : List Crumb) (pos : Nat)
    (before : List Tree) : ∀ ts : List Tree,
    ((walkTrees kind start above pos before ts).filterMap Visit.leaf?).map tree = Tree.leavesAll ts
  | [] => by simp [walkTrees, Tree.leavesAll]
  | t :: ts => by
    simp only [walkTrees, List.filterMap_append, List.map_append, Tree.leavesAll]
    rw [map_tree_walkTree, map_tree_walkTrees]

end

theorem map_tree_leaves (p : Place) : p.leaves.map tree = p.tree.leaves := map_tree_walkTree ..

end Place

namespace Script

mutual

def tokens : Script → List Token
  | .token t => [t]
  | .node _ children => tokensAll children
  | .enclosing _ inner between after => inner.tokens ++ tokensAll between ++ tokensAll after

def tokensAll : List Script → List Token
  | [] => []
  | s :: ss => s.tokens ++ tokensAll ss

end

theorem tokensAll_append (ss ts : List Script) : tokensAll (ss ++ ts) = tokensAll ss ++ tokensAll ts := by
  induction ss with
  | nil => simp [tokensAll]
  | cons s ss ih => simp [tokensAll, ih]

def leavesOf (t : Token) : List Tree := blankLeaf t.leading ++ [.leaf t.kind t.text]

theorem leavesAll_blankLeaf (blanks : List Char) : Tree.leavesAll (blankLeaf blanks) = blankLeaf blanks := by
  cases blanks <;> simp [blankLeaf, Tree.leavesAll, Tree.leaves]

mutual

theorem leaves_tree : ∀ s : Script, blankLeaf s.lead ++ s.tree.leaves = s.tokens.flatMap leavesOf
  | .token t => by simp [lead, tree, tokens, Tree.leaves, leavesOf]
  | .node _ children => by
    simp only [lead, tree, tokens, Tree.leaves]
    exact leaves_waiting children
  | .enclosing _ inner between after => by
    simp only [lead, tree, tokens, Tree.leaves, Tree.leavesAll, Tree.leavesAll_append, List.flatMap_append]
    rw [← List.append_assoc, leaves_tree inner, leaves_forest between, leaves_forest after,
      List.append_assoc]

theorem leaves_waiting : ∀ ss : List Script,
    blankLeaf (leadAll ss) ++ Tree.leavesAll (waiting ss) = (tokensAll ss).flatMap leavesOf
  | [] => by simp [leadAll, waiting, tokensAll, Tree.leavesAll, blankLeaf]
  | s :: ss => by
    simp only [leadAll, waiting, tokensAll, Tree.leavesAll, List.flatMap_append]
    rw [← List.append_assoc, leaves_tree s, leaves_forest ss]

/-- The leaves of a row of trees are the tokens of their scripts. -/
theorem leaves_forest : ∀ ss : List Script,
    Tree.leavesAll (forest ss) = (tokensAll ss).flatMap leavesOf
  | [] => by simp [forest, tokensAll, Tree.leavesAll]
  | s :: ss => by
    simp only [forest, tokensAll, Tree.leavesAll_append, Tree.leavesAll, leavesAll_blankLeaf,
      List.flatMap_append]
    rw [← List.append_assoc, leaves_tree s, leaves_forest ss]

end

end Script

end Dofile
