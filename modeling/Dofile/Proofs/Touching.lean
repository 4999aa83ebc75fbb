import Dofile.Proofs.Blanks
import Dofile.Proofs.Partners
import Mathlib.Data.List.TakeWhile

/-!
# The leaves that touch an offset

The leaves of a node tile its span, and none of them is empty but the end of the text. So an offset within the span
is touched by one leaf or by two neighbours, and an offset outside by none. The search for them drops the leaves that
end before the offset, which are a beginning of all.
-/

namespace Dofile

/-- Behind spans that end at an offset or before it, a tiling goes on from there or before. -/
theorem Tiles.of_append {offset stop : Nat} {ts : List Span} : ∀ {start : Nat} {ss : List Span},
    Tiles start (ss ++ ts) stop → start ≤ offset → (∀ s ∈ ss, s.stop ≤ offset) →
      ∃ mid ≤ offset, Tiles mid ts stop
  | start, [], h, hstart, _ => ⟨start, hstart, h⟩
  | _, s :: _, h, _, hss => h.2.of_append (hss s List.mem_cons_self) fun t ht => hss t (List.mem_cons_of_mem s ht)

namespace Place

namespace Touch

variable {score : Kind → Nat} {t : Place}

theorem toList_injective : Function.Injective toList := by
  intro a b h
  cases a <;> cases b <;> simp_all [toList]

theorem length_toList_le (touch : Touch) : touch.toList.length ≤ 2 := by
  cases touch <;> simp [toList]

/-- The best of the leaves is the last one with the highest score. -/
theorem best_eq_some_iff (touch : Touch) : touch.best? score = some t ↔
    ∃ before after, touch.toList = before ++ t :: after ∧
      (∀ u ∈ before, score u.kind ≤ score t.kind) ∧ ∀ u ∈ after, score u.kind < score t.kind := by
  cases touch with
  | none => simp [best?, toList]
  | one leaf =>
    simp only [best?, toList, Option.some.injEq]
    constructor
    · rintro rfl
      exact ⟨[], [], rfl, by simp, by simp⟩
    · rintro ⟨before, after, hsplit, -, -⟩
      cases before with
      | nil => exact (List.cons.inj hsplit).1
      | cons u before => simp at hsplit
  | between left right =>
    simp only [best?, toList, Option.some.injEq]
    constructor
    · rintro rfl
      by_cases hle : score left.kind ≤ score right.kind
      · rw [if_pos hle]
        exact ⟨[left], [], rfl, List.forall_mem_singleton.mpr hle, by simp⟩
      · rw [if_neg hle]
        exact ⟨[], [right], rfl, by simp, List.forall_mem_singleton.mpr (Nat.not_le.mp hle)⟩
    · rintro ⟨before, after, hsplit, hbefore, hafter⟩
      match before, hsplit, hbefore with
      | [], hsplit, _ =>
        obtain ⟨rfl, rfl⟩ := List.cons.inj hsplit
        exact if_neg (Nat.not_le.mpr (hafter right (by simp)))
      | [u], hsplit, hbefore =>
        obtain ⟨hleft, hsplit⟩ := List.cons.inj hsplit
        obtain ⟨rfl, -⟩ := List.cons.inj hsplit
        exact if_pos (hbefore left (by simp [hleft]))
      | _ :: _ :: _, hsplit, _ => simp at hsplit

end Touch

def touching (p : Place) (offset : Nat) : List Place :=
  p.leaves.filter fun leaf => leaf.start ≤ offset ∧ offset ≤ leaf.stop

theorem mem_touching_iff {p leaf : Place} {offset : Nat} :
    leaf ∈ p.touching offset ↔ leaf ∈ p.leaves ∧ leaf.start ≤ offset ∧ offset ≤ leaf.stop := by
  simp [touching]

theorem touching_outside {p : Place} {offset : Nat} (h : ¬(p.start ≤ offset ∧ offset ≤ p.stop)) :
    p.touching offset = [] := by
  rw [List.eq_nil_iff_forall_not_mem]
  intro leaf hleaf
  obtain ⟨hleaf, htouch⟩ := mem_touching_iff.mp hleaf
  have hbounds := bounds_of_mem_elements (mem_leaves_iff.mp hleaf).1
  omega

/-- Where leaves tile a stretch from an offset or before it and the first of them does not end before the offset, the
offset touches it. It touches the next one too where the first ends at the offset, and no more. -/
theorem filter_touching {offset start stop : Nat} {leaf : Place} {rest : List Place} (hstart : start ≤ offset)
    (htiles : Tiles start ((leaf :: rest).map span) stop) (hsorted : (leaf :: rest).Pairwise (·.start < ·.start))
    (hstop : offset ≤ leaf.stop) :
    (leaf :: rest).filter (fun leaf => decide (leaf.start ≤ offset ∧ offset ≤ leaf.stop)) =
      leaf :: if leaf.stop = offset then rest.head?.toList else [] := by
  have hfirst : leaf.start = start := htiles.1
  rw [List.filter_cons_of_pos (by simp only [decide_eq_true_eq]; omega), List.cons.injEq]
  refine ⟨rfl, ?_⟩
  cases rest with
  | nil => simp
  | cons next rest =>
    have hnext : next.start = leaf.stop := htiles.2.1
    have hlt : ∀ other ∈ rest, next.start < other.start :=
      (List.pairwise_cons.mp (List.pairwise_cons.mp hsorted).2).1
    have hrest : rest.filter (fun leaf => decide (leaf.start ≤ offset ∧ offset ≤ leaf.stop)) = [] := by
      rw [List.filter_eq_nil_iff]
      intro other hother
      have hbehind := hlt other hother
      simp only [decide_eq_true_eq]
      omega
    have hspan := next.start_le_stop
    rw [List.filter_cons, hrest]
    by_cases heq : leaf.stop = offset
    · rw [if_pos (by simp only [decide_eq_true_eq]; omega), if_pos heq]
      rfl
    · rw [if_neg (by simp only [decide_eq_true_eq]; omega), if_neg heq]

section
variable {p : Place} {offset : Nat} (h : InOrder p.leaves)
include h

/-- The first leaf that does not end before the offset touches it, and so does the next one if it ends there. -/
theorem touching_within (hin : p.start ≤ offset ∧ offset ≤ p.stop) :
    p.touching offset = match p.leaves.dropWhile (fun leaf => decide (leaf.stop < offset)) with
      | [] => []
      | leaf :: rest => leaf :: if leaf.stop = offset then rest.head?.toList else [] := by
  -- the leaves that are dropped end before the offset, so they do not touch it
  have hsplit := List.takeWhile_append_dropWhile (p := fun leaf : Place => decide (leaf.stop < offset)) (l := p.leaves)
  have hdropped : ∀ leaf ∈ p.leaves.takeWhile (fun leaf => decide (leaf.stop < offset)), leaf.stop < offset :=
    fun leaf hleaf => of_decide_eq_true (List.all_eq_true.mp List.all_takeWhile leaf hleaf)
  have htouching : p.touching offset = (p.leaves.dropWhile fun leaf => decide (leaf.stop < offset)).filter
      fun leaf => decide (leaf.start ≤ offset ∧ offset ≤ leaf.stop) := by
    unfold touching
    conv => lhs; rw [← hsplit]
    rw [List.filter_append, List.filter_eq_nil_iff.mpr, List.nil_append]
    intro leaf hleaf
    have hlt := hdropped leaf hleaf
    simp only [decide_eq_true_eq]
    omega
  rw [htouching]
  have htiles := p.tiles_leaves
  have hsorted := h.sorted
  rw [← hsplit] at htiles hsorted
  cases hrest : p.leaves.dropWhile (fun leaf => decide (leaf.stop < offset)) with
  | nil => rfl
  | cons leaf rest =>
    have hstop : offset ≤ leaf.stop := by
      have hhead := List.head?_dropWhile_not (fun leaf : Place => decide (leaf.stop < offset)) p.leaves
      rw [hrest] at hhead
      simpa using hhead
    rw [hrest, List.map_append] at htiles
    rw [hrest] at hsorted
    have hbefore : ∀ s ∈ (p.leaves.takeWhile _).map span, s.stop ≤ offset :=
      List.forall_mem_map.mpr fun leaf hleaf => Nat.le_of_lt (hdropped leaf hleaf)
    obtain ⟨start, hstart, htiles⟩ := htiles.of_append hin.1 hbefore
    exact filter_touching hstart htiles (List.pairwise_append.mp hsorted).2.1 hstop

/-- The search finds the leaves that touch the offset, in their order. -/
theorem toList_leavesAt : (p.leavesAt offset).toList = p.touching offset := by
  unfold leavesAt
  by_cases hin : p.start ≤ offset ∧ offset ≤ p.stop
  · rw [if_pos hin, touching_within h hin]
    generalize p.leaves.dropWhile (fun leaf => decide (leaf.stop < offset)) = found
    match found with
    | [] => rfl
    | [leaf] => simp [Touch.toList]
    | left :: right :: _ => by_cases heq : left.stop = offset <;> simp [Touch.toList, heq]
  · rw [if_neg hin, touching_outside hin]
    rfl

/-- No leaf touches an offset only if it lies outside of the element. -/
theorem touching_eq_nil_iff (hne : p.leaves ≠ []) :
    p.touching offset = [] ↔ ¬(p.start ≤ offset ∧ offset ≤ p.stop) := by
  refine ⟨fun hnone hin => ?_, touching_outside⟩
  -- the last leaf ends where the element does, so not every leaf ends before the offset
  obtain ⟨front, last, hleaves⟩ := (List.eq_nil_or_concat p.leaves).resolve_left hne
  have hstop : last.span.stop = p.stop := p.tiles_leaves.stop_getLast (by simp [hleaves])
  rw [touching_within h hin] at hnone
  cases hrest : p.leaves.dropWhile (fun leaf => decide (leaf.stop < offset)) with
  | nil =>
    have hlt : last.stop < offset := of_decide_eq_true (List.dropWhile_eq_nil_iff.mp hrest last (by simp [hleaves]))
    exact absurd hin.2 (Nat.not_le.mpr (hstop ▸ hlt))
  | cons leaf rest =>
    rw [hrest] at hnone
    cases hnone

end

end Place

namespace Parse

theorem leaves_ne_nil {text : List Char} (hsize : byteSize text ≤ maxOffset) {n : Place}
    (hn : n ∈ (ofText text).root.nodes) : n.leaves ≠ [] := by
  obtain ⟨items, l, h⟩ := Reading.exists_lines text
  by_cases hroot : n = (ofText text).root
  · obtain ⟨before, last, hleaves, -⟩ := (holds_of_lines h hsize).last
    rw [hroot, hleaves]
    exact List.append_ne_nil_of_right_ne_nil _ (List.cons_ne_nil _ _)
  · obtain ⟨first, hfirst, -⟩ := Place.exists_first (trimmed_of_node h hsize hn hroot)
    exact List.ne_nil_of_mem (List.mem_of_mem_head? hfirst)

/-- What is found at an offset are the leaves of the node that touch it: none, one or two neighbours, and none only
outside of the node. The search rests on the leaves that end before the offset being a beginning of all. The best of
what is found is the last one with the highest score. -/
theorem leavesAt_exact (text : List Char) (hsize : byteSize text ≤ maxOffset) :
    let root := (ofText text).root
    ∀ n ∈ root.nodes, ∀ offset : Nat,
      let touching := n.leaves.filter fun leaf => leaf.start ≤ offset ∧ offset ≤ leaf.stop
      n.leaves.Pairwise (fun a b => b.stop < offset → a.stop < offset) ∧
      (touching = [] → n.leavesAt offset = .none) ∧
      (∀ leaf, touching = [leaf] → n.leavesAt offset = .one leaf) ∧
      (∀ left right, touching = [left, right] → n.leavesAt offset = .between left right) ∧
      touching.length ≤ 2 ∧
      (touching = [] ↔ ¬(n.start ≤ offset ∧ offset ≤ n.stop)) ∧
      ∀ (score : Kind → Nat) (leaf : Place), (n.leavesAt offset).best? score = some leaf ↔
        ∃ before after, touching = before ++ leaf :: after ∧
          (∀ other ∈ before, score other.kind ≤ score leaf.kind) ∧
          ∀ other ∈ after, score other.kind < score leaf.kind := by
  intro root n hn offset touching
  have horder := (inOrder_leaves text hsize).of_isInfix (Place.leaves_isInfix (Place.mem_nodes_iff.mp hn).1)
  have hfound : (n.leavesAt offset).toList = touching := Place.toList_leavesAt horder
  refine ⟨n.partitioned_leaves offset, ?_, ?_, ?_, ?_,
    Place.touching_eq_nil_iff horder (leaves_ne_nil hsize hn), fun score leaf => ?_⟩
  · exact fun h => Place.Touch.toList_injective (hfound.trans h)
  · exact fun leaf h => Place.Touch.toList_injective (hfound.trans h)
  · exact fun left right h => Place.Touch.toList_injective (hfound.trans h)
  · exact hfound ▸ Place.Touch.length_toList_le _
  · rw [← hfound]
    exact Place.Touch.best_eq_some_iff _

theorem leavesAt_exact_mixed :
    let text := "disp \"a`b'\"\n\tmata \x7b\n x = 1 \n\x7d /* ".toList
    let root := (ofText text).root
    byteSize text ≤ maxOffset ∧ ∀ n ∈ root.nodes, ∀ offset : Nat,
      let touching := n.leaves.filter fun leaf => leaf.start ≤ offset ∧ offset ≤ leaf.stop
      n.leaves.Pairwise (fun a b => b.stop < offset → a.stop < offset) ∧
      (touching = [] → n.leavesAt offset = .none) ∧
      (∀ leaf, touching = [leaf] → n.leavesAt offset = .one leaf) ∧
      (∀ left right, touching = [left, right] → n.leavesAt offset = .between left right) ∧
      touching.length ≤ 2 ∧
      (touching = [] ↔ ¬(n.start ≤ offset ∧ offset ≤ n.stop)) ∧
      ∀ (score : Kind → Nat) (leaf : Place), (n.leavesAt offset).best? score = some leaf ↔
        ∃ before after, touching = before ++ leaf :: after ∧
          (∀ other ∈ before, score other.kind ≤ score leaf.kind) ∧
          ∀ other ∈ after, score other.kind < score leaf.kind := by
  have hsize : byteSize "disp \"a`b'\"\n\tmata \x7b\n x = 1 \n\x7d /* ".toList ≤ maxOffset := by decide
  exact ⟨hsize, leavesAt_exact _ hsize⟩

end Parse

end Dofile
