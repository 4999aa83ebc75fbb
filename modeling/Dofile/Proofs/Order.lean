import Dofile.Proofs.Walk
import Dofile.Proofs.Whole
import Mathlib.Data.List.Pairwise

/-!
# The order of elements

Of two elements of a tree one lies within the other, or they stand apart. No leaf of a parse
is empty but the end of the text, so the leaves are told apart by where they begin.
-/

namespace Dofile

theorem ends_of_pairwise {α : Type} {f : α → Nat} {first last : α} {mid : List α}
    (h : (first :: (mid ++ [last])).Pairwise (f · < f ·)) :
    f first < f last ∧ ∀ a ∈ first :: (mid ++ [last]), f first ≤ f a ∧ f a ≤ f last := by
  obtain ⟨hfirst, hrest⟩ := List.pairwise_cons.mp h
  obtain ⟨-, -, hlast⟩ := List.pairwise_append.mp hrest
  have hlt := hfirst last (by simp)
  refine ⟨hlt, fun a ha => ?_⟩
  rcases List.mem_cons.mp ha with rfl | ha
  · exact ⟨Nat.le_refl _, Nat.le_of_lt hlt⟩
  · refine ⟨Nat.le_of_lt (hfirst a ha), ?_⟩
    rcases List.mem_append.mp ha with ha | ha
    · exact Nat.le_of_lt (hlast a ha last (List.mem_singleton_self _))
    · exact Nat.le_of_eq (congrArg f (List.mem_singleton.mp ha))

/-- Two elements of a row that are not the same stand in its order, one way or the other. -/
theorem rel_of_pairwise {α : Type} {R : α → α → Prop} {l : List α} (h : l.Pairwise R) {a b : α} (ha : a ∈ l)
    (hb : b ∈ l) (hne : a ≠ b) : R a b ∨ R b a := by
  have hsymm : Std.Symm fun a b => R a b ∨ R b a := ⟨fun _ _ => Or.symm⟩
  exact (h.imp (S := fun a b => R a b ∨ R b a) .inl).forall ha hb hne

section
variable {start stop : Nat} {ss : List Span} (h : Tiles start ss stop) (hordered : ∀ s ∈ ss, s.start ≤ s.stop)
include h hordered

theorem Tiles.bounds : start ≤ stop ∧ ∀ s ∈ ss, start ≤ s.start ∧ s.stop ≤ stop := by
  induction ss generalizing start with
  | nil => exact ⟨Nat.le_of_eq h, by simp⟩
  | cons s ss ih =>
    obtain ⟨rfl, h⟩ := h
    obtain ⟨hs, hss⟩ := List.forall_mem_cons.mp hordered
    obtain ⟨hle, hbounds⟩ := ih h hss
    exact ⟨Nat.le_trans hs hle, List.forall_mem_cons.mpr ⟨⟨Nat.le_refl _, hle⟩,
      fun t ht => ⟨Nat.le_trans hs (hbounds t ht).1, (hbounds t ht).2⟩⟩⟩

theorem Tiles.pairwise : ss.Pairwise (·.stop ≤ ·.start) := by
  induction ss generalizing start with
  | nil => exact .nil
  | cons s ss ih =>
    obtain ⟨rfl, h⟩ := h
    have hss := (List.forall_mem_cons.mp hordered).2
    exact .cons (fun t ht => ((h.bounds hss).2 t ht).1) (ih h hss)

end

namespace Place

variable {p q r : Place}

theorem start_le_stop (p : Place) : p.start ≤ p.stop := Nat.le_add_right ..

theorem ordered_spans (ps : List Place) : ∀ s ∈ ps.map span, s.start ≤ s.stop := by
  intro s hs
  obtain ⟨p, -, rfl⟩ := List.mem_map.mp hs
  exact p.start_le_stop

theorem pairwise_children (h : p.isLeaf = false) : p.children.Pairwise fun a b => a.stop ≤ b.start :=
  List.pairwise_map.mp ((tiles_children h).pairwise (ordered_spans _))

theorem pairwise_leaves (p : Place) : p.leaves.Pairwise fun a b => a.stop ≤ b.start :=
  List.pairwise_map.mp (p.tiles_leaves.pairwise (ordered_spans _))

/-- The leaves that end before an offset come before those that do not. -/
theorem partitioned_leaves (p : Place) (offset : Nat) :
    p.leaves.Pairwise fun a b => b.stop < offset → a.stop < offset := by
  refine p.pairwise_leaves.imp fun {a b} hab hb => ?_
  have hle := b.start_le_stop
  omega

theorem bounds_of_mem_elements (h : q ∈ p.elements) : p.start ≤ q.start ∧ q.stop ≤ p.stop := by
  induction p using induct with
  | step p ih =>
    rcases mem_elements_iff.mp h with rfl | ⟨c, hc, hq⟩
    · exact ⟨Nat.le_refl _, Nat.le_refl _⟩
    · obtain ⟨hstart, hstop⟩ := ih c hc hq
      have hchild := ((tiles_children (isLeaf_of_mem_children hc)).bounds (ordered_spans _)).2 c.span
        (List.mem_map_of_mem hc)
      exact ⟨Nat.le_trans hchild.1 hstart, Nat.le_trans hstop hchild.2⟩

theorem apart_of_children {c d : Place} (hc : c ∈ p.children) (hd : d ∈ p.children) (hne : c ≠ d) :
    c.stop ≤ d.start ∨ d.stop ≤ c.start :=
  rel_of_pairwise (pairwise_children (isLeaf_of_mem_children hc)) hc hd hne

/-- Of two elements one lies within the other, or they stand apart. -/
theorem nested_or_apart (hq : q ∈ p.elements) (hr : r ∈ p.elements) :
    r ∈ q.elements ∨ q ∈ r.elements ∨ q.stop ≤ r.start ∨ r.stop ≤ q.start := by
  induction p using induct with
  | step p ih =>
    rcases mem_elements_iff.mp hq with rfl | ⟨c, hc, hqc⟩
    · exact .inl hr
    rcases mem_elements_iff.mp hr with rfl | ⟨d, hd, hrd⟩
    · exact .inr (.inl hq)
    by_cases h : c = d
    · subst h
      exact ih c hc hqc hrd
    · have hapart := apart_of_children hc hd h
      have hqc := bounds_of_mem_elements hqc
      have hrd := bounds_of_mem_elements hrd
      omega

theorem leaves_isInfix (h : q ∈ p.elements) : q.leaves <:+: p.leaves := by
  obtain ⟨us, vs, hwalk, -⟩ := walk_infix h
  refine ⟨us.filterMap Visit.leaf?, vs.filterMap Visit.leaf?, ?_⟩
  unfold leaves
  rw [hwalk, List.filterMap_append, List.filterMap_append]

structure InOrder (leaves : List Place) : Prop where
  solid : ∀ leaf ∈ leaves, leaf.kind ≠ .eof → leaf.start < leaf.stop
  sorted : leaves.Pairwise (·.start < ·.start)

namespace InOrder

variable {leaves : List Place} (h : InOrder leaves)
include h

theorem eq_of_start {a b : Place} (ha : a ∈ leaves) (hb : b ∈ leaves) (hstart : a.start = b.start) :
    a = b := by
  by_contra hne
  have hsides := rel_of_pairwise h.sorted ha hb hne
  omega

theorem of_isInfix {leaves' : List Place} (hpart : leaves' <:+: leaves) : InOrder leaves' :=
  ⟨fun leaf hleaf => h.solid leaf (hpart.subset hleaf), h.sorted.sublist hpart.sublist⟩

end InOrder

/-- A leaf that is a child of an element is no leaf of a node within it. -/
theorem start_ne_of_child {p q c leaf : Place} (h : InOrder p.leaves) (hc : c ∈ p.children)
    (hkind : c.isLeaf = true)
    (hsolid : c.kind ≠ .eof) (hq : q ∈ p.elements) (hnode : q.isLeaf = false) (hne : q ≠ p)
    (hleaf : leaf ∈ q.leaves) :
    leaf.start ≠ c.start := by
  intro hstart
  have hmem : c ∈ p.leaves := by
    rw [leaves_node (isLeaf_of_mem_children hc)]
    exact List.mem_flatMap.mpr ⟨c, hc, by rw [leaves_leaf hkind]; exact List.mem_singleton_self c⟩
  obtain rfl : leaf = c := h.eq_of_start ((leaves_isInfix hq).subset hleaf) hmem hstart
  obtain ⟨d, hd, hqd⟩ := (mem_elements_iff.mp hq).resolve_left hne
  have hin := bounds_of_mem_elements (mem_elements_trans hqd (mem_leaves_iff.mp hleaf).1)
  have hlt := h.solid leaf hmem hsolid
  by_cases hdc : d = leaf
  · subst hdc
    rw [elements_leaf hkind] at hqd
    rw [List.mem_singleton.mp hqd, hkind] at hnode
    cases hnode
  · have hapart := apart_of_children hd hc hdc
    omega

end Place

namespace Script

theorem text_ne_nil_of_mem_blankLeaf {blanks : List Char} {t : Tree} (h : t ∈ blankLeaf blanks) :
    t.text ≠ [] := by
  cases blanks with
  | nil => cases h
  | cons c blanks =>
    rw [List.mem_singleton.mp h]
    exact List.cons_ne_nil c blanks

theorem text_ne_nil_of_mem_leavesOf {l : Lexer} {kind : Kind} {t : Tree} (h : l.kind ≠ .eof)
    (ht : t ∈ leavesOf (l.tokenAs kind)) : t.text ≠ [] := by
  rw [leavesOf, List.mem_append, List.mem_singleton] at ht
  rcases ht with ht | rfl
  · exact text_ne_nil_of_mem_blankLeaf ht
  · exact fun hn => h (l.text_eq_nil_iff.mp hn)

end Script

namespace Parse

theorem inOrder_leaves (text : List Char) (hsize : byteSize text ≤ maxOffset) :
    Place.InOrder (ofText text).root.leaves := by
  obtain ⟨items, l, h⟩ := Reading.exists_lines text
  have hmap : (ofText text).root.leaves.map Place.tree = (ofText text).tree.leaves := Place.map_tree_leaves _
  have htree : (ofText text).tree = .node .sourceFile
      (Script.forest (Item.scriptsAll (fileItems items l))) := by
    rw [ofText_eq h hsize]
  rw [htree, leaves_file h] at hmap
  have hsolid : ∀ leaf ∈ (ofText text).root.leaves, leaf.kind ≠ .eof → leaf.start < leaf.stop := by
    intro leaf hleaf hkind
    have htext : leaf.tree.text ≠ [] := by
      have hmem : leaf.tree ∈ (ofText text).root.leaves.map Place.tree := List.mem_map_of_mem hleaf
      rw [hmap, List.mem_append, List.mem_append, List.mem_flatMap, List.mem_singleton] at hmem
      rcases hmem with (⟨t, ht, hmem⟩ | hmem) | hlast
      · have htaken := ((account_of_lines h).stands (Lexer.stands_ofText text)).2 t ht
        exact Script.text_ne_nil_of_mem_leavesOf htaken.2.1 hmem
      · exact Script.text_ne_nil_of_mem_blankLeaf hmem
      · exact absurd (by rw [Place.kind, hlast]; rfl) hkind
    have hlength := List.length_pos_iff.mpr htext
    have hle := length_le_byteSize leaf.tree.text
    rw [Place.stop, Tree.size_eq_byteSize]
    omega
  refine ⟨hsolid, ?_⟩
  have hpairs := (ofText text).root.pairwise_leaves
  obtain ⟨before, last, hleaves, -, -, hbefore⟩ := (holds_of_lines h hsize).last
  rw [hleaves] at hsolid hpairs ⊢
  -- only the last leaf may be empty, and nothing follows it
  have hlt : ∀ a ∈ before, a.start < a.stop := fun a ha => hsolid a (List.mem_append_left _ ha) (hbefore a ha)
  rw [List.pairwise_append] at hpairs ⊢
  obtain ⟨hpairs, -, hlast⟩ := hpairs
  exact ⟨hpairs.imp_of_mem fun ha _ hab => Nat.lt_of_lt_of_le (hlt _ ha) hab, List.pairwise_singleton _ _,
    fun a ha b hb => Nat.lt_of_lt_of_le (hlt a ha) (hlast a ha b hb)⟩

end Parse

end Dofile
