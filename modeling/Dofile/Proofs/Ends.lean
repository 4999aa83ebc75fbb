import Dofile.Proofs.Partners

/-!
# Ends of pairs

No two pairs begin at one opener, so the starts of the openers increase strictly. Where nothing is found to be
open, and among brackets in any case, an end tells its pair.
-/

namespace Dofile

namespace Place

variable {p q c : Place}

theorem depth_of_child (hc : c ∈ p.children) : c.depth = p.depth + 1 := by
  obtain ⟨i, hi⟩ := List.mem_iff_getElem?.mp hc
  obtain ⟨kind, ts, -, -, -, habove⟩ := child_eq hi
  simp [depth, habove]

theorem depth_le (h : q ∈ p.elements) : p.depth ≤ q.depth := by
  induction p using induct with
  | step p ih =>
    rcases mem_elements_iff.mp h with rfl | ⟨c, hc, hq⟩
    · exact Nat.le_refl _
    · have hchild := depth_of_child hc
      have hle := ih c hc hq
      omega

theorem ne_of_mem_child (hc : c ∈ p.children) (hq : q ∈ c.elements) : q ≠ p := by
  rintro rfl
  have hchild := depth_of_child hc
  have hle := depth_le hq
  omega

end Place

namespace Pair

def HasEnd (s : Span) (p : Pair) : Prop := s = p.opener ∨ s = p.closer

instance (s : Span) (p : Pair) : Decidable (HasEnd s p) := inferInstanceAs (Decidable (_ ∨ _))

theorem Separate.eq_of_end {Loose : Span → Prop} {p q : Pair} {s : Span} (h : Separate Loose p q)
    (h' : Separate Loose q p) (hloose : ∀ o, ¬ Loose o) (hs : HasEnd s p) (hs' : HasEnd s q) : p = q := by
  rcases hs with rfl | rfl <;> rcases hs' with hend | hend
  · exact h.openers (congrArg Span.start hend)
  · exact absurd (congrArg Span.start hend) h.ends
  · exact absurd (congrArg Span.start hend.symm) h'.ends
  · -- the opener of the one that begins first would be loose
    by_cases hlt : p.opener.start < q.opener.start
    · exact absurd (h.closers hend hlt) (hloose _)
    · by_cases hgt : q.opener.start < p.opener.start
      · exact absurd (h'.closers hend.symm hgt) (hloose _)
      · exact h.openers (by omega)

theorem not_loose_nil (o : Span) : ¬ IsLooseOpener [] o := fun ⟨_, hf, _⟩ => List.not_mem_nil hf

section
variable {s : Span} {pair : Pair} {pairs : List Pair} (hnodup : pairs.Nodup)
  (hsingle : ∀ a ∈ pairs, ∀ b ∈ pairs, HasEnd s a → HasEnd s b → a = b)
include hnodup hsingle

theorem filter_end (hpair : pair ∈ pairs) (hs : HasEnd s pair) : pairs.filter (HasEnd s ·) = [pair] := by
  have hmem : ∀ a, a ∈ pairs.filter (HasEnd s ·) ↔ a ∈ [pair] := by
    intro a
    rw [List.mem_filter, List.mem_singleton, decide_eq_true_iff]
    constructor
    · exact fun ha => hsingle a ha.1 pair hpair ha.2 hs
    · rintro rfl
      exact ⟨hpair, hs⟩
  exact List.perm_singleton.mp ((List.perm_ext_iff_of_nodup (hnodup.filter _) (List.nodup_singleton pair)).mpr hmem)

theorem length_filter_end : (pairs.filter (HasEnd s ·)).length ≤ 1 := by
  cases hends : pairs.filter (HasEnd s ·) with
  | nil => exact Nat.zero_le 1
  | cons a rest =>
    have ha : a ∈ pairs.filter (HasEnd s ·) := hends ▸ List.mem_cons_self
    rw [List.mem_filter, decide_eq_true_iff] at ha
    rw [← hends, filter_end hnodup hsingle ha.1 ha.2]
    exact Nat.le_refl 1

end

/-! ## The order of openers -/

def OpensFirst (p q : Place) : Prop :=
  ∀ pair ∈ ofNode? p, ∀ pair' ∈ ofNode? q, pair.opener.start < pair'.opener.start

section
variable {t : Tree} {found : List Finding} (hroot : Place.InOrder (Place.ofRoot t).leaves)
  (hread : ∀ p ∈ (Place.ofRoot t).nodes, ∀ pair, ofNode? p = some pair → Construct.IsRead found p.region)
include hroot hread

theorem opensFirst_nodes {p : Place} (hp : p ∈ (Place.ofRoot t).elements) : p.nodes.Pairwise OpensFirst := by
  induction p using Place.induct with
  | step p ih =>
    have hchild : ∀ {c q : Place}, c ∈ p.children → q ∈ c.nodes → q ∈ p.elements ∧ q.isLeaf = false := by
      intro c q hc hq
      obtain ⟨hq, hnode⟩ := Place.mem_nodes_iff.mp hq
      exact ⟨Place.mem_elements_iff.mpr (.inr ⟨c, hc, hq⟩), hnode⟩
    rw [Place.nodes_eq, List.pairwise_append]
    refine ⟨?_, List.pairwise_flatMap.mpr ⟨?_, ?_⟩, ?_⟩
    · by_cases hleaf : p.isLeaf = true
      · simp [hleaf]
      · simp [hleaf]
    · exact fun c hc => ih c hc (Place.mem_elements_trans hp (Place.mem_elements_of_child hc))
    · -- the nodes of one child end before those of the next begin
      by_cases hleaf : p.isLeaf = true
      · rw [(Place.walk_leaf hleaf).2]
        exact .nil
      · refine (Place.pairwise_children (Bool.eq_false_iff.mpr hleaf)).imp_of_mem ?_
        intro c d hc hd hstop q hq r hr pair hpair pair' hpair'
        have hq' := Place.mem_elements_trans hp (hchild hc hq).1
        have hr' := Place.mem_elements_trans hp (hchild hd hr).1
        have hqc := Place.bounds_of_mem_elements (Place.mem_nodes_iff.mp hq).1
        have hrd := Place.bounds_of_mem_elements (Place.mem_nodes_iff.mp hr).1
        have hdelimits := Delimits.of_element hroot hq' hpair
        have happart := apart_of_stop_le hroot hq' hdelimits (.of_element hroot hr' hpair') (by omega)
        exact Nat.lt_trans hdelimits.ordered happart
    · intro q hq r hmem pair hpair pair' hpair'
      obtain ⟨c, hc, hr⟩ := List.mem_flatMap.mp hmem
      by_cases hleaf : p.isLeaf = true
      · simp [hleaf] at hq
      · rw [if_neg hleaf, List.mem_singleton] at hq
        subst hq
        have hnode : q ∈ (Place.ofRoot t).nodes := Place.mem_nodes_iff.mpr ⟨hp, Bool.eq_false_iff.mpr hleaf⟩
        exact opener_lt_of_inner hroot hp hpair hpair' (hchild hc hr).1 (hchild hc hr).2
          (Place.ne_of_mem_child hc (Place.mem_nodes_iff.mp hr).1) (hread q hnode pair hpair)

theorem nodup_ofTree : (ofTree t).Nodup := by
  have hsorted : ((Place.ofRoot t).leaves.map Place.mark).Pairwise fun a b => a.2.start < b.2.start :=
    List.pairwise_map.mpr hroot.sorted
  have hbrackets : (brackets [] (Place.ofRoot t).leaves).Nodup := by
    rw [brackets_eq]
    refine (among_apart (.start hsorted)).1.imp fun h e => ?_
    rw [e] at h
    exact Nat.lt_irrefl _ h.1
  have hnodes : ((Place.ofRoot t).nodes.filterMap ofNode?).Nodup := by
    refine List.pairwise_filterMap.mpr ((opensFirst_nodes hroot hread (Place.mem_elements_iff.mpr (.inl rfl))).imp ?_)
    intro p q h pair hpair pair' hpair' e
    subst e
    exact Nat.lt_irrefl _ (h pair hpair pair hpair')
  refine (List.mergeSort_perm _ _).nodup_iff.mpr (List.nodup_append.mpr ⟨hbrackets, hnodes, ?_⟩)
  intro pair hpair pair' hpair' e
  subst e
  rw [brackets_eq] at hpair
  obtain ⟨p, hp, h⟩ := List.mem_filterMap.mp hpair'
  -- a leaf that is an end of both would be a bracket and a delimiter
  obtain ⟨leaf, hleaf, hspan, hbracket⟩ := leaves_of_bracket hpair pair.opener (by simp)
  have hmem := (Place.mem_nodes_iff.mp hp).1
  obtain ⟨leaf', hleaf', hspan', hquote⟩ := leaves_of_node (.of_element hroot hmem h) pair.opener (by simp)
  have hstart : leaf.start = leaf'.start := congrArg Span.start (hspan.trans hspan'.symm)
  obtain rfl := hroot.eq_of_start hleaf ((Place.leaves_isInfix hmem).subset hleaf') hstart
  exact hbracket ((show ∀ k ∈ quotes, IsSilent k by decide) _ hquote)

/-- The openers of all pairs stand one behind the other. -/
theorem openers_increase : (ofTree t).Pairwise (·.opener.start < ·.opener.start) := by
  have hdistinct := distinct_ofTree hroot hread
  refine (hdistinct.sorted.and (nodup_ofTree hroot hread)).imp_of_mem ?_
  intro a b ha hb ⟨hle, hne⟩
  exact Nat.lt_of_le_of_ne hle fun e => hne ((hdistinct.separate a ha b hb).openers e)

end

end Pair

end Dofile
