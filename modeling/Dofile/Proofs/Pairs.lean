import Dofile.Proofs.Brackets

/-!
# Pairs of delimiters

A pair is one of brackets or holds the first and the last leaf of a node. The pairs of nodes stand
to each other as the nodes do: one within the other, or apart.
-/

namespace Dofile

namespace Pair

theorem ofNode_eq_some {p : Place} {pair : Pair} (h : ofNode? p = some pair) :
    ∃ opener closer first mid last, delimiters? p.kind = some (opener, closer) ∧
      p.leaves = first :: (mid ++ [last]) ∧ first.kind = opener ∧ last.kind = closer ∧ pair = ⟨first.span, last.span⟩ := by
  unfold ofNode? at h
  split at h
  · next opener closer first second rest hkind hleaves =>
    have hne : second :: rest ≠ [] := List.cons_ne_nil second rest
    dsimp only at h
    split at h
    · next hdelimiters =>
      refine ⟨opener, closer, first, (second :: rest).dropLast, (second :: rest).getLast hne, hkind, ?_,
        hdelimiters.1, hdelimiters.2, (Option.some.inj h).symm⟩
      rw [hleaves, List.dropLast_append_getLast]
    · cases h
  · cases h

def quotes : List Kind := [.doubleQuote, .backtick, .quote, .compoundOpen, .compoundClose]

theorem mem_quotes {k opener closer : Kind} (h : delimiters? k = some (opener, closer)) :
    opener ∈ quotes ∧ closer ∈ quotes := by
  unfold delimiters? at h
  split at h <;> cases h <;> decide

structure Delimits (pair : Pair) (leaves : List Place) : Prop where
  opener : ∃ first ∈ leaves, first.span = pair.opener ∧ first.kind ∈ quotes
  closer : ∃ last ∈ leaves, last.span = pair.closer ∧ last.kind ∈ quotes
  ordered : pair.opener.start < pair.closer.start
  bounds : ∀ leaf ∈ leaves, pair.opener.start ≤ leaf.start ∧ leaf.start ≤ pair.closer.start

theorem delimits_of_ofNode {p : Place} {pair : Pair} (h : ofNode? p = some pair)
    (hp : Place.InOrder p.leaves) :
    Delimits pair p.leaves := by
  obtain ⟨opener, closer, first, mid, last, hkind, hleaves, hopener, hcloser, rfl⟩ := ofNode_eq_some h
  obtain ⟨hquote, hquote'⟩ := mem_quotes hkind
  have hsorted := hp.sorted
  rw [hleaves] at hsorted ⊢
  obtain ⟨hordered, hbounds⟩ := ends_of_pairwise hsorted
  exact ⟨⟨first, by simp, rfl, hopener ▸ hquote⟩, ⟨last, by simp, rfl, hcloser ▸ hquote'⟩, hordered, hbounds⟩

section
variable {root p q : Place} {pair pair' : Pair} (hroot : Place.InOrder root.leaves)
include hroot

theorem Delimits.of_element (hp : p ∈ root.elements) (h : ofNode? p = some pair) : Delimits pair p.leaves :=
  delimits_of_ofNode h (hroot.of_isInfix (Place.leaves_isInfix hp))

theorem apart_of_stop_le (hp : p ∈ root.elements) (h : Delimits pair p.leaves)
    (h' : Delimits pair' q.leaves) (happart : p.stop ≤ q.start) : pair.closer.start < pair'.opener.start := by
  obtain ⟨first', hfirst, hopener, -⟩ := h'.opener
  obtain ⟨last, hlast, hcloser, hquote⟩ := h.closer
  have hne : last.kind ≠ .eof := (show ∀ k ∈ quotes, k ≠ .eof by decide) _ hquote
  have hsolid := hroot.solid last ((Place.leaves_isInfix hp).subset hlast) hne
  have hstop := (Place.bounds_of_mem_elements (Place.mem_leaves_iff.mp hlast).1).2
  have hstart := (Place.bounds_of_mem_elements (Place.mem_leaves_iff.mp hfirst).1).1
  rw [← hopener, ← hcloser]
  change last.start < first'.start
  omega

/-- How the ends of the pairs of two nodes stand to each other. -/
theorem ends_of_nodes (hp : p ∈ root.elements) (hq : q ∈ root.elements) (h : Delimits pair p.leaves)
    (h' : Delimits pair' q.leaves) :
    (q ∈ p.elements ∧ pair.opener.start ≤ pair'.opener.start ∧ pair'.closer.start ≤ pair.closer.start) ∨
    (p ∈ q.elements ∧ pair'.opener.start ≤ pair.opener.start ∧ pair.closer.start ≤ pair'.closer.start) ∨
    pair.closer.start < pair'.opener.start ∨ pair'.closer.start < pair.opener.start := by
  have hinside : ∀ {p q : Place} {pair pair' : Pair}, Delimits pair p.leaves → Delimits pair' q.leaves →
    q ∈ p.elements →
      pair.opener.start ≤ pair'.opener.start ∧ pair'.closer.start ≤ pair.closer.start := by
    intro p q pair pair' h h' hnested
    obtain ⟨first', hfirst, hopener, -⟩ := h'.opener
    obtain ⟨last', hlast, hcloser, -⟩ := h'.closer
    rw [← hopener, ← hcloser]
    exact ⟨(h.bounds first' ((Place.leaves_isInfix hnested).subset hfirst)).1,
      (h.bounds last' ((Place.leaves_isInfix hnested).subset hlast)).2⟩
  rcases Place.nested_or_apart hp hq with hnested | hnested | happart | happart
  · exact .inl ⟨hnested, hinside h h' hnested⟩
  · exact .inr (.inl ⟨hnested, hinside h' h hnested⟩)
  · exact .inr (.inr (.inl (apart_of_stop_le hroot hp h h' happart)))
  · exact .inr (.inr (.inr (apart_of_stop_le hroot hq h' h happart)))

end

theorem mem_ofTree {t : Tree} {pair : Pair} : pair ∈ ofTree t ↔
    pair ∈ among [] ((Place.ofRoot t).leaves.map Place.mark) ∨
      ∃ p ∈ (Place.ofRoot t).nodes, ofNode? p = some pair := by
  rw [ofTree, List.mem_mergeSort, List.mem_append, brackets_eq, List.mem_filterMap]

end Pair

theorem Parse.isRead_of_pair {text : List Char} (hsize : byteSize text ≤ maxOffset) {p : Place} {pair : Pair}
    (hp : p ∈ (ofText text).root.nodes) (h : Pair.ofNode? p = some pair) :
    Construct.IsRead (ofText text).findings p.region := by
  obtain ⟨_, _, _, _, _, hkind, -⟩ := Pair.ofNode_eq_some h
  exact isRead_of_node hsize hp (by simp [hkind])

end Dofile
