import Dofile.Proofs.Crossings
import Dofile.Proofs.Ends

/-!
# Balanced words

A word of brackets in which every opener meets its closer leaves what is pending before it as it was. So its
brackets are paired with each other, whatever stands around the word.
-/

namespace Dofile

namespace Pair

def isBracket (k : Kind) : Bool := (closing? k).isSome || isClosing k

theorem isBracket_iff (k : Kind) : isBracket k = true ↔ ¬ IsSilent k := by
  unfold isBracket IsSilent
  cases closing? k <;> simp

theorem closing_of_isClosing {k : Kind} (h : isClosing k = true) : closing? k = none := by
  cases hopen : closing? k with
  | none => rfl
  | some closer =>
    rw [isClosing_of_closing hopen] at h
    cases h

theorem isClosing_closer {k closer : Kind} (h : closing? k = some closer) : isClosing closer = true := by
  unfold closing? at h
  split at h <;> first | cases h; rfl | cases h

/-- What is no bracket has no part in the pairs. -/
theorem without_silent (pending ms : List Mark) :
    behind pending (ms.filter (isBracket ·.1)) = behind pending ms ∧
    among pending (ms.filter (isBracket ·.1)) = among pending ms := by
  induction ms generalizing pending with
  | nil => exact ⟨rfl, rfl⟩
  | cons m ms ih =>
    obtain ⟨hbehind, hamong⟩ := ih (push pending m)
    rw [behind_cons, among_cons, ← hbehind, ← hamong]
    by_cases hm : isBracket m.1 = true
    · rw [List.filter_cons_of_pos (by simpa using hm)]
      exact ⟨rfl, rfl⟩
    · rw [isBracket_iff, not_not] at hm
      have hsilent : ∀ x ∈ [m], IsSilent x.1 := List.forall_mem_singleton.mpr hm
      have hpush : push pending m = pending := (silent_all hsilent pending).1
      have hclosed : closed? pending m = none := by simp [closed?, hm.2]
      rw [List.filter_cons_of_neg (by simpa [isBracket_iff] using hm), hpush, hclosed]
      exact ⟨rfl, rfl⟩

theorem among_brackets (leaves : List Place) :
    among [] (leaves.map Place.mark) = among [] ((leaves.filter (isBracket ·.kind)).map Place.mark) := by
  have hmarks : (leaves.filter (isBracket ·.kind)).map Place.mark =
      (leaves.map Place.mark).filter (isBracket ·.1) := by
    rw [List.filter_map]
    rfl
  rw [hmarks, (without_silent _ _).2]

/-- Words of brackets in which every opener meets its closer, with the openers and closers that belong together. -/
inductive Balanced : List Place → List (Place × Place) → Prop where
  | nil : Balanced [] []
  | append {word word' : List Place} {partners partners' : List (Place × Place)} (h : Balanced word partners)
    (h' : Balanced word' partners') : Balanced (word ++ word') (partners ++ partners')
  | wrap {o c : Place} {word : List Place} {partners : List (Place × Place)}
    (hkinds : closing? o.kind = some c.kind) (h : Balanced word partners) :
    Balanced (o :: (word ++ [c])) (partners ++ [(o, c)])

namespace Balanced

variable {word : List Place} {partners : List (Place × Place)} (h : Balanced word partners)
include h

/-- Every bracket of a word has its partner there. -/
theorem covers : ∀ leaf ∈ word, ∃ q ∈ partners, leaf = q.1 ∨ leaf = q.2 := by
  induction h with
  | nil => exact fun _ hleaf => absurd hleaf List.not_mem_nil
  | append _ _ ih ih' =>
    intro leaf hleaf
    rcases List.mem_append.mp hleaf with hleaf | hleaf
    · obtain ⟨q, hq, hends⟩ := ih leaf hleaf
      exact ⟨q, List.mem_append_left _ hq, hends⟩
    · obtain ⟨q, hq, hends⟩ := ih' leaf hleaf
      exact ⟨q, List.mem_append_right _ hq, hends⟩
  | @wrap o c word partners _ _ ih =>
    intro leaf hleaf
    rw [List.mem_cons, List.mem_append, List.mem_singleton] at hleaf
    rcases hleaf with rfl | hleaf | rfl
    · exact ⟨(leaf, c), by simp, .inl rfl⟩
    · obtain ⟨q, hq, hends⟩ := ih leaf hleaf
      exact ⟨q, List.mem_append_left _ hq, hends⟩
    · exact ⟨(o, leaf), by simp, .inr rfl⟩

/-- A balanced word leaves the stack as it was, and closes what it opened. -/
theorem stack (pending : List Mark) : behind pending (word.map Place.mark) = pending ∧
    among pending (word.map Place.mark) = partners.map fun q => ⟨q.1.span, q.2.span⟩ := by
  induction h generalizing pending with
  | nil => exact ⟨rfl, rfl⟩
  | append _ _ ih ih' =>
    obtain ⟨hbehind, hamong⟩ := ih pending
    obtain ⟨hbehind', hamong'⟩ := ih' pending
    rw [List.map_append, List.map_append, behind_append, among_append, hbehind, hamong, hamong']
    exact ⟨hbehind', rfl⟩
  | @wrap o c word partners hkinds _ ih =>
    obtain ⟨hbehind, hamong⟩ := ih ((c.kind, o.span) :: pending)
    have hopen : push pending o.mark = (c.kind, o.span) :: pending := by simp [push, Place.mark, hkinds]
    have hclosed : closed? pending o.mark = none := by simp [closed?, Place.mark, isClosing_of_closing hkinds]
    have hclose : isClosing c.kind = true := isClosing_closer hkinds
    -- the closer finds its opener on top
    have hlast : push ((c.kind, o.span) :: pending) c.mark = pending := by
      simp [push, Place.mark, closing_of_isClosing hclose, hclose]
    have hpair : closed? ((c.kind, o.span) :: pending) c.mark = some ⟨o.span, c.span⟩ := by
      simp [closed?, Place.mark, hclose]
    rw [List.map_cons, List.map_append, List.map_append, behind_cons, among_cons, hopen, hclosed, behind_append,
      among_append, hbehind, hamong]
    exact ⟨hlast, by simp [among_cons, among, hpair]⟩

end Balanced

def Joins (leaves : List Place) (pair : Pair) : Prop :=
  ∃ o ∈ leaves, ∃ c ∈ leaves, pair = ⟨o.span, c.span⟩ ∧ o.start < c.start ∧ closing? o.kind = some c.kind

section
variable {t : Tree} {pair : Pair} (hroot : Place.InOrder (Place.ofRoot t).leaves)
include hroot

theorem joins_of_among (h : pair ∈ among [] ((Place.ofRoot t).leaves.map Place.mark)) :
    Joins ((Place.ofRoot t).leaves.filter (isBracket ·.kind)) pair := by
  have hordered := (among_apart (.start (List.pairwise_map.mpr hroot.sorted))).2 pair h
  rw [among_brackets] at h
  obtain ⟨closer, -, hcloser, hends⟩ := ends_of_among h
  obtain ⟨k, hkinds, hopener⟩ := hends.resolve_left List.not_mem_nil
  obtain ⟨o, ho, hfirst⟩ := List.mem_map.mp hopener
  obtain ⟨c, hc, hlast⟩ := List.mem_map.mp hcloser
  have hspan : o.span = pair.opener := congrArg Prod.snd hfirst
  have hspan' : c.span = pair.closer := congrArg Prod.snd hlast
  refine ⟨o, ho, c, hc, by rw [hspan, hspan'], ?_, ?_⟩
  · rw [← hspan, ← hspan'] at hordered
    exact hordered
  · have hkind : o.kind = k := congrArg Prod.fst hfirst
    have hkind' : c.kind = closer := congrArg Prod.fst hlast
    rw [hkind, hkind', hkinds]

/-- A pair that ends at a bracket is one of brackets. -/
theorem among_of_end {leaf : Place} (hleaf : leaf ∈ (Place.ofRoot t).leaves) (hk : isBracket leaf.kind = true)
    (h : pair ∈ ofTree t) (hend : HasEnd leaf.span pair) : pair ∈ among [] ((Place.ofRoot t).leaves.map Place.mark) := by
  rcases mem_ofTree.mp h with h | ⟨p, hp, h⟩
  · exact h
  · have hmem := (Place.mem_nodes_iff.mp hp).1
    have hends : leaf.span ∈ [pair.opener, pair.closer] := by simpa [HasEnd] using hend
    obtain ⟨other, hother, hspan, hquote⟩ := leaves_of_node (.of_element hroot hmem h) _ hends
    have hstart : leaf.start = other.start := congrArg Span.start hspan.symm
    obtain rfl := hroot.eq_of_start hleaf ((Place.leaves_isInfix hmem).subset hother) hstart
    exact absurd ((show ∀ k ∈ quotes, IsSilent k by decide) _ hquote) ((isBracket_iff _).mp hk)

end

end Pair

namespace Parse

/-- A bracket is an end of one pair at most, and the pairs of brackets do not cross. Those of a balanced word are
paired with each other, whatever stands around it. The openers of all pairs stand one behind the other. -/
theorem balanced_brackets_pair (text : List Char) (hsize : byteSize text ≤ maxOffset) :
    let p := ofText text
    let leaves := p.root.leaves.filter (Pair.isBracket ·.kind)
    let pairs := Pair.ofTree p.tree
    let bracketPairs := pairs.filter fun pair => leaves.any (Pair.HasEnd ·.span pair)
    (∀ leaf ∈ leaves, (pairs.filter (Pair.HasEnd leaf.span ·)).length ≤ 1) ∧
      (∀ pair ∈ bracketPairs, pair.Joins leaves) ∧
      (∀ a ∈ bracketPairs, ∀ b ∈ bracketPairs, ¬ a.Crosses b) ∧
      (∀ before word after partners, leaves = before ++ word ++ after → Pair.Balanced word partners →
        (∀ leaf ∈ word, ∃ q ∈ partners, leaf = q.1 ∨ leaf = q.2) ∧
          ∀ q ∈ partners, ⟨q.1.span, q.2.span⟩ ∈ bracketPairs) ∧
      pairs.Pairwise (·.opener.start < ·.opener.start) := by
  intro p leaves pairs bracketPairs
  have horder := inOrder_leaves text hsize
  have hread : ∀ q ∈ p.root.nodes, ∀ pair, Pair.ofNode? q = some pair → Construct.IsRead p.findings q.region :=
    fun q hq pair h => isRead_of_pair hsize hq h
  have hsorted : (p.root.leaves.map Place.mark).Pairwise fun a b => a.2.start < b.2.start :=
    List.pairwise_map.mpr horder.sorted
  have hamong : ∀ pair ∈ bracketPairs, pair ∈ Pair.among [] (p.root.leaves.map Place.mark) := by
    intro pair hpair
    obtain ⟨hpair, hend⟩ := List.mem_filter.mp hpair
    obtain ⟨leaf, hleaf, hend⟩ := List.any_eq_true.mp hend
    obtain ⟨hleaf, hk⟩ := List.mem_filter.mp hleaf
    exact Pair.among_of_end horder hleaf hk hpair (of_decide_eq_true hend)
  refine ⟨?_, ?_, ?_, ?_, Pair.openers_increase horder hread⟩
  · intro leaf hleaf
    obtain ⟨hleaf, hk⟩ := List.mem_filter.mp hleaf
    refine Pair.length_filter_end (Pair.nodup_ofTree horder hread) fun a ha b hb hend hend' => ?_
    have ha := Pair.among_of_end horder hleaf hk ha hend
    have hb := Pair.among_of_end horder hleaf hk hb hend'
    exact (Pair.separate_brackets horder ha hb).eq_of_end (Pair.separate_brackets horder hb ha) Pair.not_loose_nil
      hend hend'
  · exact fun pair hpair => Pair.joins_of_among horder (hamong pair hpair)
  · exact fun a ha b hb => Pair.brackets_not_cross hsorted (hamong a ha) (hamong b hb)
  · intro before word after partners hword hbalanced
    refine ⟨hbalanced.covers, fun q hq => ?_⟩
    have hpair : ⟨q.1.span, q.2.span⟩ ∈ Pair.among [] (p.root.leaves.map Place.mark) := by
      rw [Pair.among_brackets, show p.root.leaves.filter (Pair.isBracket ·.kind) = before ++ word ++ after from hword,
        List.map_append, List.map_append, Pair.among_append, Pair.among_append, (hbalanced.stack _).2]
      exact List.mem_append_left _ (List.mem_append_right _ (List.mem_map_of_mem hq))
    obtain ⟨o, ho, c, -, hends, -⟩ := Pair.joins_of_among horder hpair
    refine List.mem_filter.mpr ⟨Pair.mem_ofTree.mpr (.inl hpair), List.any_eq_true.mpr ⟨o, ho, ?_⟩⟩
    exact decide_eq_true (.inl (congrArg Pair.opener hends).symm)

theorem balanced_brackets_pair_amid_others :
    let text := "display ) [(a\x7bb\x7d `c') (\n".toList
    let p := ofText text
    let leaves := p.root.leaves.filter (Pair.isBracket ·.kind)
    let pairs := Pair.ofTree p.tree
    let bracketPairs := pairs.filter fun pair => leaves.any (Pair.HasEnd ·.span pair)
    byteSize text ≤ maxOffset ∧ (∀ leaf ∈ leaves, (pairs.filter (Pair.HasEnd leaf.span ·)).length ≤ 1) ∧
      (∀ pair ∈ bracketPairs, pair.Joins leaves) ∧
      (∀ a ∈ bracketPairs, ∀ b ∈ bracketPairs, ¬ a.Crosses b) ∧
      (∀ before word after partners, leaves = before ++ word ++ after → Pair.Balanced word partners →
        (∀ leaf ∈ word, ∃ q ∈ partners, leaf = q.1 ∨ leaf = q.2) ∧
          ∀ q ∈ partners, ⟨q.1.span, q.2.span⟩ ∈ bracketPairs) ∧
      pairs.Pairwise (·.opener.start < ·.opener.start) := by
  have hsize : byteSize "display ) [(a\x7bb\x7d `c') (\n".toList ≤ maxOffset := by decide
  exact ⟨hsize, balanced_brackets_pair _ hsize⟩

end Parse

end Dofile
