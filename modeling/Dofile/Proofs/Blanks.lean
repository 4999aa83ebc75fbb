import Dofile.Proofs.Nested
import Dofile.Proofs.Order
import Mathlib.Data.List.Chain

/-!
# Blanks

Blanks are set apart before a token, and they stay outside of the nodes that begin with it. So every node but the
file begins and ends with a token, and between two tokens there is one leaf of blanks at most.
-/

namespace Dofile

/-! ## Nodes begin and end with tokens -/

namespace Tree

structure Trimmed (t : Tree) : Prop where
  first : ∃ leaf ∈ t.leaves.head?, leaf.kind ≠ .whitespace
  last : ∃ leaf ∈ t.leaves.getLast?, leaf.kind ≠ .whitespace

theorem trimmed_leaf {kind : Kind} (h : kind ≠ .whitespace) (text : List Char) : (leaf kind text).Trimmed :=
  ⟨⟨_, rfl, h⟩, ⟨_, rfl, h⟩⟩

theorem leavesAll_singleton (t : Tree) : leavesAll [t] = t.leaves := by simp [leavesAll]

/-- A row of trees that begins and ends with trimmed ones. -/
theorem trimmed_node {kind : Kind} {ts : List Tree} (h : ∃ t ∈ ts.head?, t.Trimmed) (h' : ∃ t ∈ ts.getLast?, t.Trimmed) :
    (node kind ts).Trimmed := by
  constructor
  · obtain ⟨t, ht, ⟨leaf, hleaf, hkind⟩, -⟩ := h
    obtain ⟨rest, rfl⟩ := List.head?_eq_some_iff.mp ht
    refine ⟨leaf, ?_, hkind⟩
    rw [leaves, leavesAll, List.head?_append, Option.mem_def.mp hleaf]
    rfl
  · obtain ⟨t, ht, -, ⟨leaf, hleaf, hkind⟩⟩ := h'
    obtain ⟨rest, rfl⟩ := List.getLast?_eq_some_iff.mp ht
    refine ⟨leaf, ?_, hkind⟩
    rw [leaves, leavesAll_append, leavesAll_singleton, List.getLast?_append, Option.mem_def.mp hleaf]
    rfl

def KeepsTrimmed (t : Tree) : Prop := t.isLeaf = false → t.Trimmed

end Tree

theorem Script.getLast?_waiting {ss : List Script} (h : ss ≠ []) :
    (waiting ss).getLast? = (ss.map tree).getLast? := by
  obtain ⟨init, s, rfl⟩ := (List.eq_nil_or_concat ss).resolve_left h
  rw [List.concat_eq_append, List.map_append, List.map_singleton, List.getLast?_append_of_ne_nil _ (by simp)]
  cases init with
  | nil => rfl
  | cons r init =>
    rw [List.cons_append, waiting, forest_append, ← List.cons_append, forest, forest, ← List.append_assoc,
      List.getLast?_append_of_ne_nil _ (by simp)]

namespace Item

def KeepTrimmed (items : List Item) : Prop := ∀ t ∈ trees items, t.Trimmed ∧ t.All Tree.KeepsTrimmed

variable {is js : List Item} {kind : Kind}

theorem KeepTrimmed.append (h : KeepTrimmed is) (h' : KeepTrimmed js) : KeepTrimmed (is ++ js) :=
  forall_trees_append h h'

theorem keepTrimmed_token (l : Lexer) (h : kind ≠ .whitespace) : KeepTrimmed [.token l kind] :=
  List.forall_mem_singleton.mpr ⟨Tree.trimmed_leaf h _, fun hnode => by cases hnode⟩

theorem keepTrimmed_item (l : Lexer) : KeepTrimmed [l.item] := keepTrimmed_token l l.kind_ne_whitespace

/-- A node around items that are not without a tree. -/
theorem KeepTrimmed.over (h : KeepTrimmed is) (hne : scriptsAll is ≠ []) (kind : Kind) :
    (Tree.node kind (Script.waiting (scriptsAll is))).Trimmed ∧
      (Tree.node kind (Script.waiting (scriptsAll is))).All Tree.KeepsTrimmed := by
  have hfirst : ∃ t ∈ (Script.waiting (scriptsAll is)).head?, t.Trimmed := by
    cases hss : scriptsAll is with
    | nil => exact absurd hss hne
    | cons s ss =>
      refine ⟨s.tree, rfl, (h s.tree ?_).1⟩
      rw [trees, hss]
      exact List.mem_cons_self
  have hlast : ∃ t ∈ (Script.waiting (scriptsAll is)).getLast?, t.Trimmed := by
    rw [Script.getLast?_waiting hne]
    refine ⟨_, List.getLast?_eq_getLast_of_ne_nil (by simpa using hne), (h _ ?_).1⟩
    exact List.getLast_mem _
  have htrimmed : (Tree.node kind (Script.waiting (scriptsAll is))).Trimmed := Tree.trimmed_node hfirst hlast
  exact ⟨htrimmed, Tree.all_node (fun _ => htrimmed)
    ((spaced_waiting is).forall (fun t ht => (h t ht).2) fun _ hnode => by cases hnode)⟩

theorem KeepTrimmed.node (h : KeepTrimmed is) (hne : scriptsAll is ≠ []) (kind : Kind) :
    KeepTrimmed [.node kind is] := List.forall_mem_singleton.mpr (h.over hne kind)

theorem KeepTrimmed.givenUp (h : KeepTrimmed is) (hne : scriptsAll is ≠ []) (kind : Kind) (f : Finding) :
    KeepTrimmed [.enclosed kind (is ++ [.found f])] := by
  rw [KeepTrimmed, trees_givenUp]
  obtain ⟨htrimmed, hall⟩ := h.over hne kind
  have herror : (Tree.node .error [.node kind (Script.waiting (scriptsAll is))]).Trimmed :=
    Tree.trimmed_node ⟨_, rfl, htrimmed⟩ ⟨_, rfl, htrimmed⟩
  exact List.forall_mem_singleton.mpr ⟨herror, Tree.all_node (fun _ => herror) (List.forall_mem_singleton.mpr hall)⟩

end Item

namespace Derivation

open Item (KeepTrimmed keepTrimmed_item keepTrimmed_token)

theorem scripts_ne_nil {outer : Setting} {l l' : Lexer} {items : List Item} (h : Derivation outer l items l')
    (hmoves : l'.rest.length < l.rest.length) : Item.scriptsAll items ≠ [] := by
  intro hnone
  rcases h.first with ⟨-, rfl⟩ | ⟨s, ss, hss, -⟩
  · exact Nat.lt_irrefl _ hmoves
  · rw [hnone] at hss
    cases hss

theorem keepTrimmed {outer : Setting} {l l' : Lexer} {items : List Item} (h : Derivation outer l items l') :
    KeepTrimmed items := by
  have hnone : ∀ {items : List Item}, Item.trees items = [] → KeepTrimmed items := fun h t ht => by
    rw [h] at ht
    cases ht
  have hname : ∀ {l m : Lexer} {is : List Item}, Reading.bracedName.leads l is m → KeepTrimmed is := by
    intro l m is h
    rcases h with ⟨-, -, rfl, -⟩ | ⟨-, ⟨-, rfl, -⟩ | ⟨-, rfl, -⟩⟩
    · exact keepTrimmed_item l
    · exact hnone rfl
    · exact hnone rfl
  have hfound : ∀ {f : Finding} {is : List Item}, KeepTrimmed is → KeepTrimmed (.found f :: is) := fun h => h
  -- a node that begins with a token has one
  have hne : ∀ (l : Lexer) (is : List Item), Item.scriptsAll (l.item :: is) ≠ [] := fun _ _ => List.cons_ne_nil _ _
  induction h with
  | nil | missingName => exact hnone rfl
  | append _ _ ih ih' => exact ih.append ih'
  | token => exact keepTrimmed_item _
  | word _ hk => exact keepTrimmed_token _ (Kind.ne_whitespace_of_mem_wordLabels hk)
  | node _ h hmoves _ ih => exact ih.node (h.scripts_ne_nil hmoves) _
  | problem _ h hmoves ih => exact (hfound ih).node (h.scripts_ne_nil hmoves) _
  | unknown | openComment => exact (hfound (keepTrimmed_item _)).node (hne _ []) _
  | openBlock _ h hmoves _ _ ih => exact ih.givenUp (h.scripts_ne_nil hmoves) _ _
  | @plainMacro _ l m => exact ((keepTrimmed_item l).append (keepTrimmed_item m)).node (hne l _) _
  | @bracedMacro _ l b m is _ _ _ h =>
    exact (((keepTrimmed_item l).append ((keepTrimmed_item b).append (hname h))).append (keepTrimmed_item m)).node
      (hne l _) _
  | @openMacro _ l b m is _ _ _ h =>
    exact ((keepTrimmed_item l).append ((keepTrimmed_item b).append (hname h))).givenUp (hne l _) _ _
  | @closed _ _ l m _ _ _ _ _ ih =>
    exact (((keepTrimmed_item l).append ih).append (keepTrimmed_item m)).node (hne l _) _
  | @unclosed _ _ l _ _ _ _ _ _ ih => exact ((keepTrimmed_item l).append ih).givenUp (hne l _) _ _

end Derivation

namespace Place

variable {n : Place} (h : n.tree.Trimmed)
include h

theorem exists_first : ∃ first ∈ n.firstLeaf?, first.kind ≠ .whitespace := by
  obtain ⟨leaf, hleaf, hkind⟩ := h.first
  rw [← map_tree_leaves, List.head?_map] at hleaf
  obtain ⟨first, hfirst, rfl⟩ := Option.map_eq_some_iff.mp hleaf
  exact ⟨first, hfirst, hkind⟩

theorem exists_last : ∃ last ∈ n.lastLeaf?, last.kind ≠ .whitespace := by
  obtain ⟨leaf, hleaf, hkind⟩ := h.last
  rw [← map_tree_leaves, List.getLast?_map] at hleaf
  obtain ⟨last, hlast, rfl⟩ := Option.map_eq_some_iff.mp hleaf
  exact ⟨last, hlast, hkind⟩

theorem trimmedLeaves_eq : n.trimmedLeaves = n.leaves := by
  obtain ⟨first, hfirst, hkind⟩ := exists_first h
  obtain ⟨last, hlast, hkind'⟩ := exists_last h
  obtain ⟨rest, hleaves⟩ := List.head?_eq_some_iff.mp hfirst
  obtain ⟨front, hleaves'⟩ := List.getLast?_eq_some_iff.mp hlast
  have hdrop : n.leaves.dropWhile (·.kind.isTrivia) = n.leaves := by
    rw [hleaves, List.dropWhile_cons_of_neg (by simpa [Kind.isTrivia] using hkind)]
  have hdrop' : n.leaves.reverse.dropWhile (·.kind.isTrivia) = n.leaves.reverse := by
    rw [hleaves', List.reverse_concat, List.dropWhile_cons_of_neg (by simpa [Kind.isTrivia] using hkind')]
  rw [trimmedLeaves, hdrop, hdrop', List.reverse_reverse]

theorem trimmedSpan_eq : n.trimmedSpan = n.span := by
  rw [trimmedSpan, trimmedLeaves_eq h, span_eq]
  rfl

end Place

/-! ## Blanks between tokens -/

def Tree.Spaced (a b : Tree) : Prop := a.kind = .whitespace → b.kind ≠ .whitespace

def Tree.IsRun (t : Tree) : Prop := t.kind = .whitespace → t.text ≠ [] ∧ ∀ c ∈ t.text, c = ' ' ∨ c = '\t'

namespace Script

variable {ts : List Token} (h : ∀ t ∈ ts, t.kind ≠ .whitespace)
include h

theorem spaced_leaves : (ts.flatMap leavesOf).IsChain Tree.Spaced := by
  induction ts with
  | nil => exact .nil
  | cons t ts ih =>
    obtain ⟨ht, hts⟩ := List.forall_mem_cons.mp h
    have htoken : (leavesOf t).IsChain Tree.Spaced := by
      rw [leavesOf]
      cases t.leading with
      | nil => exact .singleton _
      | cons c blanks => exact .cons_cons (fun _ => ht) (.singleton _)
    -- the last leaf of a token is the token itself
    rw [List.flatMap_cons, List.isChain_append]
    refine ⟨htoken, ih hts, fun a ha b _ hblank => absurd hblank ?_⟩
    rw [leavesOf, List.getLast?_concat] at ha
    cases ha
    exact ht

theorem runs_leaves (hleading : ∀ t ∈ ts, ∀ c ∈ t.leading, isBlank c = true) : ∀ u ∈ ts.flatMap leavesOf, u.IsRun := by
  intro u hu hkind
  obtain ⟨t, ht, hu⟩ := List.mem_flatMap.mp hu
  rw [leavesOf, List.mem_append, List.mem_singleton] at hu
  rcases hu with hu | rfl
  · have hblank := hleading t ht
    cases hlead : t.leading with
    | nil =>
      rw [hlead] at hu
      cases hu
    | cons c blanks =>
      rw [hlead, blankLeaf, List.mem_singleton] at hu
      rw [hlead] at hblank
      subst hu
      refine ⟨List.cons_ne_nil c blanks, fun d hd => ?_⟩
      simpa [isBlank] using hblank d hd
  · exact absurd hkind (h t ht)

end Script

namespace Parse

section
variable {text : List Char} {items : List Item} {l : Lexer}
  (h : (Reading.lines text.length).leads (.ofText text) items l)
include h

/-- The leaves of a file are those of its tokens. -/
theorem exists_tokens (hsize : byteSize text ≤ maxOffset) : ∃ ts : List Token,
    (ofText text).root.tree.leaves = ts.flatMap Script.leavesOf ∧
      ∀ t ∈ ts, t.kind ≠ .whitespace ∧ ∀ c ∈ t.leading, isBlank c = true := by
  refine ⟨(Item.takenAll (fileItems items l)).map fun t => t.1.tokenAs t.2, ?_, fun t ht => ?_⟩
  · rw [tree_of_lines h hsize, Tree.leaves, Script.leaves_forest, Item.tokens_scriptsAll]
  · obtain ⟨u, hu, rfl⟩ := List.mem_map.mp ht
    refine ⟨?_, fun c hc => Lexer.isBlank_of_mem_leading hc⟩
    rw [fileItems, Item.takenAll_append, List.mem_append] at hu
    rcases hu with hu | hu
    · exact ((account_of_lines h).stands (Lexer.stands_ofText text) |>.2 u hu).2.ne_whitespace
    · rw [List.mem_singleton.mp hu]
      exact l.kind_ne_whitespace

theorem trimmed_of_node (hsize : byteSize text ≤ maxOffset) {n : Place} (hn : n ∈ (ofText text).root.nodes)
    (hne : n ≠ (ofText text).root) : n.tree.Trimmed := by
  obtain ⟨hmem, hnode⟩ := Place.mem_nodes_iff.mp hn
  obtain ⟨c, hc, hn⟩ := (Place.mem_elements_iff.mp hmem).resolve_left hne
  have hchild : c.tree.All Tree.KeepsTrimmed := by
    rcases child_cases h hsize (Place.tree_mem_children hc) with ht | ⟨kind, word, ht⟩
    · exact ((Reading.derives_lines _ trivial h).keepTrimmed c.tree ht).2
    · rw [ht]
      exact fun hnode => by cases hnode
  exact (Place.all_elements hchild n hn).self hnode

theorem isRun_of_leaf (hsize : byteSize text ≤ maxOffset) {leaf : Place} (hleaf : leaf ∈ (ofText text).root.leaves) :
    leaf.tree.IsRun := by
  obtain ⟨ts, hleaves, hts⟩ := exists_tokens h hsize
  rw [← Place.map_tree_leaves] at hleaves
  have hmem : leaf.tree ∈ ts.flatMap Script.leavesOf := hleaves ▸ List.mem_map_of_mem hleaf
  exact Script.runs_leaves (fun t ht => (hts t ht).1) (fun t ht => (hts t ht).2) leaf.tree hmem

end

/-- Every node but the file begins and ends with a leaf that is no blank, so its span is the same without blanks at
its ends. A leaf of blanks is a run of spaces and tabs, and no two of them are side by side. -/
theorem blanks_stand_apart (text : List Char) (hsize : byteSize text ≤ maxOffset) :
    let root := (ofText text).root
    (∀ n ∈ root.nodes, n ≠ root → (∃ first ∈ n.firstLeaf?, first.kind ≠ .whitespace) ∧
      (∃ last ∈ n.lastLeaf?, last.kind ≠ .whitespace) ∧ n.trimmedSpan = n.span) ∧
      (∀ leaf ∈ root.leaves, leaf.kind = .whitespace → leaf.text ≠ [] ∧ ∀ c ∈ leaf.text, c = ' ' ∨ c = '\t') ∧
      root.leaves.IsChain fun a b => a.kind = .whitespace → b.kind ≠ .whitespace := by
  intro root
  obtain ⟨items, l, h⟩ := Reading.exists_lines text
  refine ⟨?_, fun leaf hleaf => isRun_of_leaf h hsize hleaf, ?_⟩
  · intro n hn hne
    have htrimmed := trimmed_of_node h hsize hn hne
    exact ⟨Place.exists_first htrimmed, Place.exists_last htrimmed, Place.trimmedSpan_eq htrimmed⟩
  · obtain ⟨ts, hleaves, hts⟩ := exists_tokens h hsize
    have hspaced := Script.spaced_leaves fun t ht => (hts t ht).1
    rw [← hleaves, ← Place.map_tree_leaves, List.isChain_map] at hspaced
    exact hspaced

theorem blanks_stand_apart_mixed :
    let text := "  program  p /* a */\n\tdisplay  \"b \" `c \n end \n mata \x7b \n ".toList
    let root := (ofText text).root
    byteSize text ≤ maxOffset ∧
      (∀ n ∈ root.nodes, n ≠ root → (∃ first ∈ n.firstLeaf?, first.kind ≠ .whitespace) ∧
        (∃ last ∈ n.lastLeaf?, last.kind ≠ .whitespace) ∧ n.trimmedSpan = n.span) ∧
      (∀ leaf ∈ root.leaves, leaf.kind = .whitespace → leaf.text ≠ [] ∧ ∀ c ∈ leaf.text, c = ' ' ∨ c = '\t') ∧
      root.leaves.IsChain fun a b => a.kind = .whitespace → b.kind ≠ .whitespace := by
  have hsize : byteSize "  program  p /* a */\n\tdisplay  \"b \" `c \n end \n mata \x7b \n ".toList ≤ maxOffset := by
    decide
  exact ⟨hsize, blanks_stand_apart _ hsize⟩

end Parse

end Dofile
