import Dofile.Editor.Capture
import Dofile.Proofs.Errors
import Dofile.Proofs.Nested
import Dofile.Proofs.Order

/-!
# Ranges of one capture

Each highlighted range is tiled by leaves of its capture, so every leaf with a capture lies in
one of them. What a leaf in a string or a macro reference looks like is decided by the innermost one.
-/

namespace Dofile

namespace Highlight

/-! ## Joined ranges -/

structure MadeOf (r : Highlight) (hs : List Highlight) : Prop where
  tiles : Tiles r.span.start (hs.map span) r.span.stop
  captures : ∀ h ∈ hs, h.capture = r.capture
  nonempty : hs ≠ []

theorem madeOf_self (r : Highlight) : r.MadeOf [r] := ⟨⟨rfl, rfl⟩, by simp, List.cons_ne_nil r []⟩

theorem MadeOf.concat {r h : Highlight} {hs : List Highlight} (hr : r.MadeOf hs) (hcapture : r.capture = h.capture)
    (htouch : r.span.stop = h.span.start) :
    MadeOf ⟨⟨r.span.start, h.span.stop⟩, r.capture⟩ (hs ++ [h]) where
  tiles := by
    rw [List.map_append]
    exact hr.tiles.append ⟨htouch.symm, rfl⟩
  captures := List.forall_mem_append.mpr ⟨hr.captures, List.forall_mem_singleton.mpr hcapture.symm⟩
  nonempty := List.append_ne_nil_of_right_ne_nil hs (List.cons_ne_nil h [])

theorem groups_joinFrom {current : Highlight} {hs rest : List Highlight} (hcurrent : current.MadeOf hs) :
    ∃ groups, List.Forall₂ MadeOf (joinFrom current rest) groups ∧ groups.flatten = hs ++ rest := by
  induction rest generalizing current hs with
  | nil => exact ⟨[hs], .cons hcurrent .nil, by simp⟩
  | cons next rest ih =>
    rw [joinFrom]
    split
    · rename_i h
      obtain ⟨groups, hgroups, hflat⟩ := ih (hcurrent.concat h.1 h.2)
      exact ⟨groups, hgroups, by rw [hflat, List.append_assoc]; rfl⟩
    · obtain ⟨groups, hgroups, hflat⟩ := ih (madeOf_self next)
      exact ⟨hs :: groups, .cons hcurrent hgroups, by rw [List.flatten_cons, hflat]; rfl⟩

/-- Joining only sets what is given into groups. -/
theorem groups_join (hs : List Highlight) :
    ∃ groups, List.Forall₂ MadeOf (join hs) groups ∧ groups.flatten = hs := by
  cases hs with
  | nil => exact ⟨[], .nil, rfl⟩
  | cons first rest => exact groups_joinFrom (madeOf_self first)

section
variable {rs : List Highlight} {groups : List (List Highlight)} (h : List.Forall₂ MadeOf rs groups)
include h

theorem exists_range (hordered : ∀ x ∈ groups.flatten, x.span.start ≤ x.span.stop) {x : Highlight}
    (hx : x ∈ groups.flatten) :
    ∃ r ∈ rs, r.capture = x.capture ∧ r.span.start ≤ x.span.start ∧ x.span.stop ≤ r.span.stop := by
  induction h with
  | nil => cases hx
  | @cons r g rs groups hr _ ih =>
    rw [List.flatten_cons, List.forall_mem_append] at hordered
    rw [List.flatten_cons, List.mem_append] at hx
    rcases hx with hx | hx
    · have hspans : ∀ s ∈ g.map span, s.start ≤ s.stop := List.forall_mem_map.mpr hordered.1
      obtain ⟨hstart, hstop⟩ := (hr.tiles.bounds hspans).2 x.span (List.mem_map_of_mem hx)
      exact ⟨r, List.mem_cons_self, (hr.captures x hx).symm, hstart, hstop⟩
    · obtain ⟨r', hr', hrange⟩ := ih hordered.2 hx
      exact ⟨r', List.mem_cons_of_mem r hr', hrange⟩

theorem exists_group {r : Highlight} (hr : r ∈ rs) : ∃ g, r.MadeOf g ∧ ∀ x ∈ g, x ∈ groups.flatten := by
  induction h with
  | nil => cases hr
  | @cons _ g _ groups hfirst _ ih =>
    rcases List.mem_cons.mp hr with rfl | hr
    · exact ⟨g, hfirst, fun x hx => List.mem_append_left _ hx⟩
    · obtain ⟨g', hg', hmem⟩ := ih hr
      exact ⟨g', hg', fun x hx => List.mem_append_right g (hmem x hx)⟩

theorem pairwise_ranges (hapart : groups.flatten.Pairwise fun a b => a.span.stop ≤ b.span.start) :
    rs.Pairwise fun a b => a.span.stop ≤ b.span.start := by
  induction h with
  | nil => exact .nil
  | @cons r g rs groups hr hrest ih =>
    rw [List.flatten_cons, List.pairwise_append] at hapart
    obtain ⟨-, hbehind, hcross⟩ := hapart
    refine .cons (fun r' hr' => ?_) (ih hbehind)
    -- the last one of the group before stands before the first one of the group behind
    obtain ⟨g', hg', hmem⟩ := exists_group hrest hr'
    have hlast := hr.tiles.stop_getLast (by rw [List.getLast?_map, List.getLast?_eq_getLast_of_ne_nil hr.nonempty]; rfl)
    have hfirst := hg'.tiles.start_head (by rw [List.head?_map, List.head?_eq_some_head hg'.nonempty]; rfl)
    rw [← hlast, ← hfirst]
    exact hcross _ (List.getLast_mem hr.nonempty) _ (hmem _ (List.head_mem hg'.nonempty))

end

theorem span_of_leaf {p : Place} {h : Highlight} (hp : ofLeaf? p = some h) : h.span = p.span := by
  obtain ⟨capture, -, rfl⟩ := Option.map_eq_some_iff.mp hp
  rfl

/-- The ranges of a tree are in order and apart. -/
theorem pairwise_ofTree (t : Tree) : (ofTree t).Pairwise fun a b => a.span.stop ≤ b.span.start := by
  obtain ⟨groups, hgroups, hflat⟩ := groups_join ((Place.ofRoot t).leaves.filterMap ofLeaf?)
  refine pairwise_ranges hgroups ?_
  rw [hflat]
  refine (Place.pairwise_leaves _).filterMap ofLeaf? fun a b hab x hx y hy => ?_
  rw [span_of_leaf hx, span_of_leaf hy]
  exact hab

/-- A leaf with a capture lies in a range of that capture, and it meets no other range. -/
theorem range_of_leaf {t : Tree} {leaf : Place} {capture : Capture} (hleaf : leaf ∈ (Place.ofRoot t).leaves)
    (hcapture : Capture.ofKinds? leaf.kind leaf.parentKinds = some capture) :
    ∃ r ∈ ofTree t, r.span.Contains leaf.span ∧ r.capture = capture ∧
      ∀ r' ∈ ofTree t, r'.span.start < leaf.stop → leaf.start < r'.span.stop → r' = r := by
  have hleaf' : ofLeaf? leaf = some ⟨leaf.span, capture⟩ := by rw [ofLeaf?, hcapture]; rfl
  obtain ⟨groups, hgroups, hflat⟩ := groups_join ((Place.ofRoot t).leaves.filterMap ofLeaf?)
  have hordered : ∀ x ∈ groups.flatten, x.span.start ≤ x.span.stop := by
    intro x hx
    rw [hflat] at hx
    obtain ⟨p, -, hp⟩ := List.mem_filterMap.mp hx
    rw [span_of_leaf hp]
    exact p.start_le_stop
  obtain ⟨r, hr, hsame, hstart, hstop⟩ := exists_range hgroups hordered
    (hflat ▸ List.mem_filterMap.mpr ⟨leaf, hleaf, hleaf'⟩)
  refine ⟨r, hr, ⟨hstart, hstop⟩, hsame, fun r' hr' hbefore hbehind => ?_⟩
  by_contra hne
  have hsides := rel_of_pairwise (pairwise_ofTree t) hr hr' (Ne.symm hne)
  have hstart : r.span.start ≤ leaf.start := hstart
  have hstop : leaf.stop ≤ r.span.stop := hstop
  omega

end Highlight

/-! ## Leaves in strings and macro references -/

namespace Place

theorem map_kind_parents (p : Place) : p.parents.map kind = p.parentKinds := by
  obtain ⟨tree, start, above⟩ := p
  induction above generalizing tree start with
  | nil => rfl
  | cons c above ih => exact congrArg (c.kind :: ·) (ih (c.plug tree) c.start)

theorem mem_parents {root p q : Place} (hroot : root.above = []) (hp : p ∈ root.elements) (hq : q ∈ p.parents) :
    q ∈ root.nodes ∧ p ∈ q.elements := by
  obtain ⟨tree, start, above⟩ := p
  induction above generalizing tree start with
  | nil => cases hq
  | cons c above ih =>
    obtain ⟨hnode, hchild⟩ := child_of_parent (q := ⟨c.plug tree, c.start, above⟩) hroot hp rfl
    have hbelow := mem_elements_of_child hchild
    rcases List.mem_cons.mp hq with rfl | hq
    · exact ⟨hnode, hbelow⟩
    · obtain ⟨hmem, habove⟩ := ih (c.plug tree) c.start (mem_nodes_iff.mp hnode).1 hq
      exact ⟨hmem, mem_elements_trans habove hbelow⟩

/-- The innermost string or macro reference around a place. -/
def innermost? (p : Place) : Option Place := p.parents.find? (·.kind.isDelimited)

theorem findSome_parentKinds (p : Place) :
    p.parentKinds.findSome? Capture.ofDelimited? = p.innermost?.bind fun n => Capture.ofDelimited? n.kind := by
  rw [innermost?, ← map_kind_parents, List.findSome?_map]
  induction p.parents with
  | nil => rfl
  | cons q parents ih =>
    have hq : (Capture.ofDelimited? q.kind).isSome = q.kind.isDelimited := by cases q.kind <;> rfl
    rw [List.findSome?_cons, List.find?_cons, ← hq]
    cases h : Capture.ofDelimited? q.kind with
    | none => simpa [h] using ih
    | some capture => simp [h]

end Place

/-- A leaf of a kind that stands in strings and macro references looks like the innermost one. -/
theorem Capture.ofKinds_of_inner {k : Kind} (hk : k ∈ Kind.delimitedLeaves) {ancestors : List Kind} {capture : Capture}
    (h : ancestors.findSome? ofDelimited? = some capture) : ofKinds? k ancestors = some capture := by
  have hplain : ∀ k ∈ Kind.delimitedLeaves, k.isComment = false ∧ k ∉ [.whitespace, .newline, .eof, .mataContent] := by
    decide
  obtain ⟨hcomment, hother⟩ := hplain k hk
  unfold ofKinds?
  rw [hcomment, h]
  split
  · contradiction
  · split <;> first | rfl | exact absurd (by decide) hother

namespace Parse

/-- A leaf within a string or a macro reference lies in a range that looks like the innermost one around it. -/
theorem range_of_innermost {text : List Char} (hsize : byteSize text ≤ maxOffset) {leaf n : Place}
    (hleaf : leaf ∈ (ofText text).root.leaves) (hn : leaf.innermost? = some n) {capture : Capture}
    (hcapture : Capture.ofDelimited? n.kind = some capture) :
    ∃ r ∈ Highlight.ofTree (ofText text).tree, r.span.Contains leaf.span ∧ r.capture = capture ∧
      ∀ r' ∈ Highlight.ofTree (ofText text).tree, r'.span.start < leaf.stop → leaf.start < r'.span.stop → r' = r := by
  obtain ⟨hmem, hisleaf⟩ := Place.mem_leaves_iff.mp hleaf
  obtain ⟨hnode, hbelow⟩ := Place.mem_parents rfl hmem (List.mem_of_find?_eq_some hn)
  obtain ⟨_, _, hsits⟩ := sits_of_node hsize hnode
  have hdelimited := List.find?_some (p := fun q : Place => q.kind.isDelimited) hn
  have hall := hsits.nests.all_inner (.inr hdelimited)
  have hkind := ((Place.all_elements hall leaf hbelow).self hisleaf).1
  have hinner : leaf.parentKinds.findSome? Capture.ofDelimited? = some capture := by
    rw [Place.findSome_parentKinds, hn]
    exact hcapture
  exact Highlight.range_of_leaf hleaf (Capture.ofKinds_of_inner hkind hinner)

end Parse

end Dofile
