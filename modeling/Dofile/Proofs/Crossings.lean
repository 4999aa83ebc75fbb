import Dofile.Proofs.Pairs

/-!
# Pairs that cross

Brackets do not cross each other, and neither do the delimiters of nodes. What lies between
the delimiters of a node is sealed off, so a pair of brackets can only begin there and end behind
them with a brace that a macro reference leaves open.
-/

namespace Dofile

namespace Pair

def Crosses (p q : Pair) : Prop :=
  p.opener.start < q.opener.start ∧ q.opener.start < p.closer.start ∧ p.closer.start < q.closer.start

instance (p q : Pair) : Decidable (Crosses p q) := inferInstanceAs (Decidable (_ ∧ _))

theorem Apart.not_crosses {p q : Pair} (h : Apart p q) : ¬ Crosses p q ∧ ¬ Crosses q p := by
  obtain ⟨hcloser, hopener⟩ := h
  unfold Crosses
  omega

/-! ## Brackets and nodes -/

section
variable {A B C mid : List Mark} {first last : Mark}
  (hsorted : (A ++ (B ++ C)).Pairwise fun a b => a.2.start < b.2.start) (hB : B = first :: (mid ++ [last]))
include hsorted hB

theorem zones : (∀ a ∈ A, a.2.start < first.2.start) ∧
    (∀ b ∈ B, first.2.start ≤ b.2.start ∧ b.2.start ≤ last.2.start) ∧
    ∀ c ∈ C, last.2.start < c.2.start := by
  obtain ⟨-, hright, hA⟩ := List.pairwise_append.mp hsorted
  obtain ⟨hinner, -, hC⟩ := List.pairwise_append.mp hright
  rw [hB] at hinner
  have hbounds := (ends_of_pairwise hinner).2
  exact ⟨fun a ha => hA a ha first (by simp [hB]), by rwa [hB], fun c hc => hC last (by simp [hB]) c hc⟩

/-- A pair of brackets that crosses the ends of a stretch that is sealed off begins with an opener
left there. -/
theorem crosses_sealed {P : Span → Prop} (hB' : Sealed P B) {q : Pair} (hq : q ∈ among [] (A ++ (B ++ C))) :
    ¬ Crosses q ⟨first.2, last.2⟩ ∧ (Crosses ⟨first.2, last.2⟩ q → P q.opener) := by
  obtain ⟨hbefore, hwithin, hbehind⟩ := zones hsorted hB
  obtain ⟨⟨stale, hstale, hP⟩, hpairs⟩ := hB' (behind [] A)
  rw [among_append, among_append, List.mem_append, List.mem_append] at hq
  dsimp only [Crosses]
  -- the pair ends before the stretch, in it or behind it
  rcases hq with hq | hq | hq <;> obtain ⟨closer, -, hcloser, hopener⟩ := ends_of_among hq
  · have hcloser : q.closer.start < first.2.start := hbefore _ hcloser
    omega
  · obtain ⟨m, hm, hm'⟩ := List.mem_map.mp (hpairs q hq)
    have hopener : first.2.start ≤ q.opener.start := hm' ▸ (hwithin m hm).1
    have hcloser : q.closer.start ≤ last.2.start := (hwithin _ hcloser).2
    omega
  · have hcloser : last.2.start < q.closer.start := hbehind _ hcloser
    refine ⟨by omega, fun hcross => ?_⟩
    rw [hstale, List.mem_append] at hopener
    rcases hopener with (hopener | hopener) | ⟨k, -, hopener⟩
    · exact hP _ hopener
    · rcases mem_behind hopener with hopener | hopener
      · cases hopener
      · obtain ⟨m, hm, hm'⟩ := List.mem_map.mp hopener
        have hm' : m.2 = q.opener := hm'
        have hopener : q.opener.start < first.2.start := hm' ▸ hbefore m hm
        omega
    · have hopener : last.2.start < q.opener.start := hbehind _ hopener
      omega

end

theorem brackets_not_cross {ms : List Mark}
    (hsorted : ms.Pairwise fun a b => a.2.start < b.2.start) {p q : Pair}
    (hp : p ∈ among [] ms) (hq : q ∈ among [] ms) : ¬ Crosses p q := by
  intro hcross
  have hne : p ≠ q := fun h => Nat.ne_of_lt hcross.1 (by rw [h])
  rcases apart_of_ne hsorted hp hq hne with hapart | hapart
  · exact hapart.not_crosses.1 hcross
  · exact hapart.not_crosses.2 hcross

theorem nodes_not_cross {root p q : Place} {pair pair' : Pair} (hroot : Place.InOrder root.leaves)
    (hp : p ∈ root.elements) (hq : q ∈ root.elements) (h : ofNode? p = some pair)
    (h' : ofNode? q = some pair') :
    ¬ Crosses pair pair' := by
  have hends := ends_of_nodes hroot hp hq (.of_element hroot hp h) (.of_element hroot hq h')
  unfold Crosses
  omega

theorem crosses_node {root p : Place} {found : List Finding} {pair q : Pair}
    (hroot : root.leaves.Pairwise (·.start < ·.start))
    (hp : p ∈ root.elements) (h : ofNode? p = some pair)
    (hsealed : Sealed (IsOpenBrace found) (p.leaves.map Place.mark))
    (hq : q ∈ among [] (root.leaves.map Place.mark)) :
    ¬ Crosses q pair ∧ (Crosses pair q → IsOpenBrace found q.opener) := by
  obtain ⟨opener, closer, first, mid, last, -, hleaves, -, -, rfl⟩ := ofNode_eq_some h
  obtain ⟨before, behind, hpart⟩ := Place.leaves_isInfix hp
  have hmarks : root.leaves.map Place.mark =
      before.map Place.mark ++ (p.leaves.map Place.mark ++ behind.map Place.mark) := by
    rw [← hpart, List.map_append, List.map_append, List.append_assoc]
  have hsorted : (root.leaves.map Place.mark).Pairwise fun a b => a.2.start < b.2.start :=
    List.pairwise_map.mpr hroot
  have hstretch : p.leaves.map Place.mark = first.mark :: (mid.map Place.mark ++ [last.mark]) := by
    simp [hleaves]
  rw [hmarks] at hsorted hq
  exact crosses_sealed hsorted hstretch hsealed hq

end Pair

namespace Parse

theorem sealed_of_node {text : List Char} (hsize : byteSize text ≤ maxOffset) {p : Place} {pair : Pair}
    (hp : p ∈ (ofText text).root.nodes) (h : Pair.ofNode? p = some pair) :
    Pair.Sealed (IsOpenBrace (ofText text).findings) (p.leaves.map Place.mark) := by
  obtain ⟨q, l, m, is, tail, hoccurs⟩ := isRead_of_pair hsize hp h
  exact hoccurs.sealed_leaves

/-- Two pairs cross only if the later one begins with the brace of a macro reference that is found
to be unterminated. -/
theorem crossing_at_open_brace (text : List Char) (hsize : byteSize text ≤ maxOffset) :
    let p := ofText text
    ∀ a ∈ Pair.ofTree p.tree, ∀ b ∈ Pair.ofTree p.tree, a.Crosses b →
      ∃ f ∈ p.findings, f.problem = .unterminatedGlobalMacro ∧ b.opener.start = f.span.start + 1 := by
  intro p a ha b hb hcross
  have horder := inOrder_leaves text hsize
  have hnode : ∀ {q : Place}, q ∈ p.root.nodes → q ∈ p.root.elements :=
    fun hq => (Place.mem_nodes_iff.mp hq).1
  rcases Pair.mem_ofTree.mp ha with ha | ⟨pa, hpa, ha⟩ <;>
    rcases Pair.mem_ofTree.mp hb with hb | ⟨pb, hpb, hb⟩
  · exact absurd hcross (Pair.brackets_not_cross (List.pairwise_map.mpr horder.sorted) ha hb)
  · exact absurd hcross (Pair.crosses_node horder.sorted (hnode hpb) hb (sealed_of_node hsize hpb hb) ha).1
  · exact (Pair.crosses_node horder.sorted (hnode hpa) ha (sealed_of_node hsize hpa ha) hb).2 hcross
  · exact absurd hcross (Pair.nodes_not_cross horder (hnode hpa) (hnode hpb) ha hb)

theorem crossing_at_open_brace_string :
    let text := "\"$\x7ba\" \x7d".toList
    let p := ofText text
    byteSize text ≤ maxOffset ∧ ∃ a ∈ Pair.ofTree p.tree, ∃ b ∈ Pair.ofTree p.tree, a.Crosses b ∧
      ∃ f ∈ p.findings, f.problem = .unterminatedGlobalMacro ∧ b.opener.start = f.span.start + 1 := by
  have hsize : byteSize "\"$\x7ba\" \x7d".toList ≤ maxOffset := by decide
  have hstring : ⟨⟨0, 1⟩, ⟨4, 5⟩⟩ ∈ Pair.ofTree (ofText "\"$\x7ba\" \x7d".toList).tree := by
    rw [Pair.ofTree, List.mem_mergeSort]
    decide +kernel
  have hbraces : ⟨⟨2, 3⟩, ⟨6, 7⟩⟩ ∈ Pair.ofTree (ofText "\"$\x7ba\" \x7d".toList).tree := by
    rw [Pair.ofTree, List.mem_mergeSort]
    decide +kernel
  have hcross : Pair.Crosses ⟨⟨0, 1⟩, ⟨4, 5⟩⟩ ⟨⟨2, 3⟩, ⟨6, 7⟩⟩ := by decide
  exact ⟨hsize, _, hstring, _, hbraces, hcross, crossing_at_open_brace _ hsize _ hstring _ hbraces hcross⟩

/-- A string ends between the brace of the macro reference in it and the brace that is paired with that. -/
theorem pairs_cross_at_open_brace : ∃ a ∈ Pair.ofTree (ofText "\"$\x7ba\" \x7d".toList).tree,
    ∃ b ∈ Pair.ofTree (ofText "\"$\x7ba\" \x7d".toList).tree, a.Crosses b := by
  simp only [Pair.ofTree, List.mem_mergeSort]
  decide +kernel

end Parse

end Dofile
