import Dofile.Proofs.Pairs

/-!
# The way back from a partner

From the partner of a delimiter the way leads back to the delimiter, unless macros or compound
strings of one family that are not closed share the closer of one within them: then it leads to the
opener of the outermost.
-/

namespace Dofile

namespace Pair

/-! ## Pairs that are told apart by their ends -/

/-- What two pairs may share: nothing but a closer, and then the opener of the earlier one is loose. -/
structure Separate (Loose : Span → Prop) (p q : Pair) : Prop where
  ends : p.opener.start ≠ q.closer.start
  openers : p.opener.start = q.opener.start → p = q
  closers : p.closer = q.closer → p.opener.start < q.opener.start → Loose p.opener

structure Distinct (Loose : Span → Prop) (pairs : List Pair) : Prop where
  sorted : pairs.Pairwise (·.opener.start ≤ ·.opener.start)
  separate : ∀ p ∈ pairs, ∀ q ∈ pairs, Separate Loose p q

theorem partner_eq_some {p : Pair} {s r : Span} (h : p.partner? s = some r) :
    s = p.opener ∧ r = p.closer ∨ s = p.closer ∧ r = p.opener := by
  unfold partner? at h
  split at h
  · next hs => exact .inl ⟨hs, (Option.some.inj h).symm⟩
  · split at h
    · next hs => exact .inr ⟨hs, (Option.some.inj h).symm⟩
    · cases h

theorem partner_ne_none {p : Pair} {s : Span} (h : s = p.opener ∨ s = p.closer) : p.partner? s ≠ none := by
  unfold partner?
  rcases h with rfl | rfl
  · simp
  · split <;> simp

theorem partnerIn_eq_some {pairs : List Pair} {s r : Span} (h : partnerIn? pairs s = some r) :
    ∃ before p behind, pairs = before ++ p :: behind ∧ p.partner? s = some r ∧
      ∀ q ∈ before, s ≠ q.opener ∧ s ≠ q.closer := by
  obtain ⟨before, p, behind, hpairs, hp, hbefore⟩ := List.findSome?_eq_some_iff.mp h
  refine ⟨before, p, behind, hpairs, hp, fun q hq => ?_⟩
  have hnone := hbefore q hq
  exact ⟨fun e => partner_ne_none (.inl e) hnone, fun e => partner_ne_none (.inr e) hnone⟩

theorem exists_partnerIn {pairs : List Pair} {p : Pair} {s : Span} (hp : p ∈ pairs)
    (h : s = p.opener ∨ s = p.closer) :
    ∃ r, partnerIn? pairs s = some r := by
  have hpartner : (p.partner? s).isSome = true := Option.isSome_iff_ne_none.mpr (partner_ne_none h)
  exact Option.isSome_iff_exists.mp (List.findSome?_isSome_iff.mpr ⟨p, hp, hpartner⟩)

namespace Distinct

variable {Loose : Span → Prop} {pairs : List Pair} (h : Distinct Loose pairs) {s r : Span}
include h

/-- The way back from a partner leads to where it was found from, or to a loose opener before it. -/
theorem back (hs : partnerIn? pairs s = some r) : partnerIn? pairs r = some s ∨
    ∃ o, Loose o ∧ o.start < s.start ∧ partnerIn? pairs r = some o := by
  obtain ⟨before, p, behind, hpairs, hp, -⟩ := partnerIn_eq_some hs
  have hmem : p ∈ pairs := by simp [hpairs]
  rcases partner_eq_some hp with ⟨rfl, rfl⟩ | ⟨rfl, rfl⟩
  · obtain ⟨o, ho⟩ := exists_partnerIn hmem (.inr rfl)
    obtain ⟨before', q, behind', hpairs', hq, hbefore'⟩ := partnerIn_eq_some ho
    have hmem' : q ∈ pairs := by simp [hpairs']
    rcases partner_eq_some hq with ⟨hopener, -⟩ | ⟨hcloser, rfl⟩
    · exact absurd (congrArg Span.start hopener.symm) (h.separate q hmem' p hmem).ends
    · -- the first pair with this closer is `p` or begins before it
      have hle : q = p ∨ q.opener.start ≤ p.opener.start := by
        rw [hpairs', List.mem_append, List.mem_cons] at hmem
        have hsorted := h.sorted
        rw [hpairs'] at hsorted
        rcases hmem with hmem | rfl | hmem
        · exact absurd rfl (hbefore' p hmem).2
        · exact .inl rfl
        · exact .inr ((List.pairwise_cons.mp (List.pairwise_append.mp hsorted).2.1).1 p hmem)
      by_cases heq : q = p
      · exact .inl (heq ▸ ho)
      · have hlt : q.opener.start < p.opener.start :=
          Nat.lt_of_le_of_ne (hle.resolve_left heq) fun e => heq ((h.separate q hmem' p hmem).openers e)
        exact .inr ⟨q.opener, (h.separate q hmem' p hmem).closers hcloser.symm hlt, hlt, ho⟩
  · obtain ⟨o, ho⟩ := exists_partnerIn hmem (.inl rfl)
    obtain ⟨before', q, behind', hpairs', hq, -⟩ := partnerIn_eq_some ho
    have hmem' : q ∈ pairs := by simp [hpairs']
    rcases partner_eq_some hq with ⟨hopener, rfl⟩ | ⟨hcloser, -⟩
    · obtain rfl := (h.separate p hmem q hmem').openers (congrArg Span.start hopener)
      exact .inl ho
    · exact absurd (congrArg Span.start hcloser) (h.separate p hmem q hmem').ends

end Distinct

end Pair

/-! ## The delimiters of a construct among its children -/

namespace Construct.Occurs

variable {found : List Finding} {p : Place} {q : Construct} {l m : Lexer} {is tail : List Item}
  (h : Occurs found p.region q l m is tail)
include h

theorem map_tree_children : p.children.map Place.tree =
    .leaf q.opener l.ahead.text ::
    (Script.forest (Item.scriptsAll is) ++ Script.forest (Item.scriptsAll tail)) := by
  rw [Place.map_tree_children_eq]
  exact h.children

theorem opener_child : ∃ c ∈ p.children, c.isLeaf = true ∧ c.kind = q.opener ∧ c.span = l.ahead.span ∧
    p.leaves.head? = some c := by
  obtain ⟨c, cs, hchildren, htree, -⟩ := List.map_eq_cons_iff.mp h.map_tree_children
  have hc : c ∈ p.children := by simp [hchildren]
  have hleaf : c.isLeaf = true := by rw [Place.isLeaf, htree]; rfl
  have hstart : c.start = l.ahead.start := by
    obtain ⟨kind, ts, -, -, hstart, -⟩ := Place.child_eq (p := p) (i := 0) (c := c) (by simp [hchildren])
    rw [hstart, show p.start = l.ahead.start from h.start]
    rfl
  refine ⟨c, hc, hleaf, by rw [Place.kind, htree]; rfl, ?_, ?_⟩
  · rw [Place.span, Place.stop, hstart, htree]
    rfl
  · rw [Place.leaves_node (Place.isLeaf_of_mem_children hc), hchildren, List.flatMap_cons,
      Place.leaves_leaf hleaf]
    rfl

theorem closer_child (ht : tail = [m.item]) : ∃ c ∈ p.children, c.isLeaf = true ∧ c.kind = m.kind ∧
    p.leaves.getLast? = some c := by
  have htrees := h.map_tree_children
  have hforest : Script.forest (Item.scriptsAll tail) =
      Script.blankLeaf m.ahead.leading ++ [.leaf m.kind m.ahead.text] := by
    rw [ht]
    rfl
  rw [hforest, ← List.append_assoc, ← List.cons_append] at htrees
  obtain ⟨cs, ds, hchildren, -, hds⟩ := List.map_eq_append_iff.mp htrees
  obtain ⟨c, rfl, htree⟩ := List.map_eq_singleton_iff.mp hds
  have hc : c ∈ p.children := by simp [hchildren]
  have hleaf : c.isLeaf = true := by rw [Place.isLeaf, htree]; rfl
  refine ⟨c, hc, hleaf, by rw [Place.kind, htree]; rfl, ?_⟩
  rw [Place.leaves_node (Place.isLeaf_of_mem_children hc), hchildren, List.flatMap_append,
    List.flatMap_singleton, Place.leaves_leaf hleaf, List.getLast?_concat]

end Construct.Occurs

theorem Derivation.no_quotes {outer : Setting} {l l' : Lexer} {items : List Item}
    (h : Derivation outer l items l')
    (hstring : outer = .within .doubleString) : ∀ k ∈ Item.marks items, k.1 ∉ Pair.quotes := by
  have htoken : ∀ {l : Lexer} {kind : Kind}, l.kind = kind → kind ∉ Pair.quotes → ∀ k ∈ Item.marks [l.item],
      k.1 ∉ Pair.quotes := by
    intro l kind hl hk
    subst hl
    exact List.forall_mem_singleton.mpr hk
  have hbraces : ∀ {l b c m : Lexer} {is : List Item}, l.kind = .dollar → b.kind = .leftBrace →
      Reading.bracedName.leads c is m → ∀ k ∈ Item.marks (l.item :: b.item :: is), k.1 ∉ Pair.quotes := by
    intro l b c m is hl hbrace hname
    have hident : ∀ k ∈ Item.marks is, k.1 ∉ Pair.quotes :=
      fun k hk => by rw [kind_bracedName hname k hk]; decide
    exact List.forall_mem_append.mpr ⟨htoken hl (by decide),
      List.forall_mem_append.mpr ⟨htoken hbrace (by decide), hident⟩⟩
  induction h with
  | nil => exact fun _ hk => by cases hk
  | append _ _ ih ih' =>
    rw [Item.marks_append]
    exact List.forall_mem_append.mpr ⟨ih hstring, ih' hstring⟩
  | token h =>
    subst hstring
    exact htoken rfl ((show ∀ k ∈ Construct.doubleString.tokens, k ∉ Pair.quotes by decide) _ h)
  | word | missingName | node | problem | unknown | openComment | openBlock => cases hstring
  | plainMacro hl hm hname =>
    rw [Item.marks_node]
    exact List.forall_mem_append.mpr ⟨htoken hl (by decide), htoken hname (by decide)⟩
  | @bracedMacro _ l b m is hl hb hbrace hname hm =>
    have hmarks := hbraces hl hbrace hname
    rw [Item.marks_node, Item.marks_append]
    exact List.forall_mem_append.mpr ⟨hmarks, htoken hm (by decide)⟩
  | @openMacro _ l b m is hl hb hbrace hname hm =>
    have hmarks := hbraces hl hbrace hname
    rw [Item.marks_enclosed, Item.marks_append]
    exact List.forall_mem_append.mpr ⟨hmarks, fun _ hk => by cases hk⟩
  | closed hq | unclosed hq =>
    subst hstring
    cases hq

def IsLooseOpener (found : List Finding) (o : Span) : Prop :=
  ∃ f ∈ found, (f.problem = .unterminatedLocalMacro ∨ f.problem = .unterminatedCompoundString) ∧ f.span = o

namespace Pair

theorem ends_of_ofNode {p : Place} {pair : Pair} (h : ofNode? p = some pair) :
    p.leaves.head?.map Place.span = some pair.opener ∧
    p.leaves.getLast?.map Place.span = some pair.closer := by
  obtain ⟨opener, closer, first, mid, last, -, hleaves, -, -, rfl⟩ := ofNode_eq_some h
  rw [hleaves, ← List.cons_append, List.getLast?_concat]
  exact ⟨rfl, rfl⟩

/-- A double-quoted string that is not closed has no pair. -/
theorem kind_of_open {found : List Finding} {p : Place} {pair : Pair} {q : Construct} {l m : Lexer}
    {is tail : List Item}
    (h : ofNode? p = some pair) (hoccurs : Construct.Occurs found p.region q l m is tail)
    (hopen : Item.marks tail = []) : q ≠ .doubleString := by
  rintro rfl
  obtain ⟨opener, closer, first, mid, last, hkind, hleaves, hopener, hcloser, -⟩ := ofNode_eq_some h
  have hp : p.kind = .doubleString := congrArg Tree.kind hoccurs.tree
  rw [hp] at hkind
  cases hkind
  have hfilter : ((first :: (mid ++ [last])).map Place.mark).filter (·.1 != .whitespace) =
      first.mark :: ((mid.map Place.mark).filter (·.1 != .whitespace) ++ [last.mark]) := by
    simp [Place.mark, hopener, hcloser]
  have hmarks := hoccurs.marks_leaves
  rw [hleaves, hfilter, Item.marks_append, hopen, List.append_nil] at hmarks
  have hcontent : _ = Item.marks is := (List.cons.inj hmarks).2
  -- the leaf that would be the closer is part of the content
  have hlast : last.mark ∈ Item.marks is := by
    rw [← hcontent]
    exact List.mem_append_right _ (List.mem_singleton_self _)
  have hkind : last.mark.1 = .doubleQuote := hcloser
  exact hoccurs.content.no_quotes rfl _ hlast (by rw [hkind]; decide)

section
variable {root p q : Place} {pair pair' : Pair} {found : List Finding} (hroot : Place.InOrder root.leaves)
  (hp : p ∈ root.elements) (h : ofNode? p = some pair) (h' : ofNode? q = some pair')
include hroot hp h h'

/-- A node within another begins behind its opener. -/
theorem opener_lt_of_inner (hq : q ∈ p.elements) (hnode : q.isLeaf = false) (hne : q ≠ p)
    (hread : Construct.IsRead found p.region) :
    pair.opener.start < pair'.opener.start := by
  obtain ⟨c, l, m, is, tail, hoccurs⟩ := hread
  have horder := hroot.of_isInfix (Place.leaves_isInfix hp)
  obtain ⟨first, hfirst, hopener, -⟩ :=
    (delimits_of_ofNode h' (horder.of_isInfix (Place.leaves_isInfix hq))).opener
  obtain ⟨child, hchild, hleaf, hkind, -, hhead⟩ := hoccurs.opener_child
  have hspan : child.span = pair.opener := by simpa [hhead] using (ends_of_ofNode h).1
  have hsolid : child.kind ≠ .eof := hkind ▸ c.opener_ne_eof
  have hstart := Place.start_ne_of_child horder hchild hleaf hsolid hq hnode hne hfirst
  have hle := ((delimits_of_ofNode h horder).bounds first ((Place.leaves_isInfix hq).subset hfirst)).1
  rw [← hspan, ← hopener] at *
  exact Nat.lt_of_le_of_ne hle hstart.symm

/-- A node within another ends before its closer, or the opener of the other is loose. -/
theorem loose_of_inner (hq : q ∈ p.elements) (hnode : q.isLeaf = false) (hne : q ≠ p)
    (hread : Construct.IsRead found p.region) (hcloser : pair.closer = pair'.closer) :
    IsLooseOpener found pair.opener := by
  obtain ⟨c, l, m, is, tail, hoccurs⟩ := hread
  have horder := hroot.of_isInfix (Place.leaves_isInfix hp)
  rcases hoccurs.ends with ⟨hm, ht⟩ | ⟨-, ht, hfound⟩
  · obtain ⟨last, hlast, hspan, -⟩ :=
      (delimits_of_ofNode h' (horder.of_isInfix (Place.leaves_isInfix hq))).closer
    obtain ⟨child, hchild, hleaf, hkind, hend⟩ := hoccurs.closer_child ht
    have hsolid : child.kind ≠ .eof := by rw [hkind, hm]; exact c.closer_ne_eof
    have hspan' : child.span = pair.closer := by simpa [hend] using (ends_of_ofNode h).2
    have hstart : last.span = child.span := by rw [hspan, hspan', hcloser]
    exact absurd (congrArg Span.start hstart)
      (Place.start_ne_of_child horder hchild hleaf hsolid hq hnode hne hlast)
  · obtain ⟨child, -, -, -, hspan, hhead⟩ := hoccurs.opener_child
    have hspan' : child.span = pair.opener := by simpa [hhead] using (ends_of_ofNode h).1
    refine ⟨_, hfound, ?_, by rw [← hspan', hspan]⟩
    have hstring := kind_of_open h hoccurs (by rw [ht]; rfl)
    rcases c with _ | ⟨family, _⟩
    · exact absurd rfl hstring
    · cases family
      · exact .inl rfl
      · exact .inr rfl

end

/-! ## Brackets and nodes share no leaf -/

theorem isDelimiter_of_not_silent {k : Kind} (h : ¬ IsSilent k) : isDelimiter k = true := by
  by_contra hk
  refine h ⟨?_, ?_⟩
  · unfold closing?
    split <;> first | rfl | exact absurd rfl hk
  · unfold isClosing
    split <;> first | rfl | exact absurd rfl hk

theorem leaves_of_bracket {leaves : List Place} {pair : Pair} (h : pair ∈ among [] (leaves.map Place.mark)) :
    ∀ s ∈ [pair.opener, pair.closer], ∃ leaf ∈ leaves, leaf.span = s ∧ ¬ IsSilent leaf.kind := by
  have hmark : ∀ {k : Kind} {s : Span}, (k, s) ∈ leaves.map Place.mark → ¬ IsSilent k →
      ∃ leaf ∈ leaves, leaf.span = s ∧ ¬ IsSilent leaf.kind := by
    intro k s hmem hk
    obtain ⟨leaf, hleaf, heq⟩ := List.mem_map.mp hmem
    cases heq
    exact ⟨leaf, hleaf, rfl, hk⟩
  obtain ⟨closer, hclose, hcloser, hopener⟩ := ends_of_among h
  obtain ⟨k, hopen, hopener⟩ := hopener.resolve_left List.not_mem_nil
  refine List.forall_mem_cons.mpr ⟨hmark hopener fun hk => ?_,
    List.forall_mem_singleton.mpr (hmark hcloser fun hk => ?_)⟩
  · rw [hk.1] at hopen; cases hopen
  · rw [hk.2] at hclose; cases hclose

theorem leaves_of_node {p : Place} {pair : Pair} (h : Delimits pair p.leaves) :
    ∀ s ∈ [pair.opener, pair.closer], ∃ leaf ∈ p.leaves, leaf.span = s ∧ leaf.kind ∈ quotes :=
  List.forall_mem_cons.mpr ⟨h.opener, List.forall_mem_singleton.mpr h.closer⟩

section
variable {t : Tree} {found : List Finding} (hroot : Place.InOrder (Place.ofRoot t).leaves)
include hroot

theorem separate_mixed {p : Place} {pair pair' : Pair}
    (hpair : pair ∈ among [] ((Place.ofRoot t).leaves.map Place.mark))
    (hp : p ∈ (Place.ofRoot t).nodes) (h : ofNode? p = some pair') :
    Separate (IsLooseOpener found) pair pair' ∧ Separate (IsLooseOpener found) pair' pair := by
  have hmem := (Place.mem_nodes_iff.mp hp).1
  have hne : ∀ s ∈ [pair.opener, pair.closer], ∀ s' ∈ [pair'.opener, pair'.closer], s.start ≠ s'.start := by
    intro s hs s' hs' hstart
    obtain ⟨leaf, hleaf, rfl, hbracket⟩ := leaves_of_bracket hpair s hs
    obtain ⟨leaf', hleaf', rfl, hquote⟩ := leaves_of_node (.of_element hroot hmem h) s' hs'
    obtain rfl := hroot.eq_of_start hleaf ((Place.leaves_isInfix hmem).subset hleaf') hstart
    exact hbracket ((show ∀ k ∈ quotes, IsSilent k by decide) _ hquote)
  have hopeners := hne pair.opener (by simp) pair'.opener (by simp)
  have hclosers := hne pair.closer (by simp) pair'.closer (by simp)
  constructor
  · exact ⟨hne _ (by simp) _ (by simp), fun e => absurd e hopeners,
      fun e => absurd (congrArg Span.start e) hclosers⟩
  · exact ⟨(hne _ (by simp) _ (by simp)).symm, fun e => absurd e.symm hopeners,
      fun e => absurd (congrArg Span.start e.symm) hclosers⟩

theorem separate_brackets {p q : Pair} (hp : p ∈ among [] ((Place.ofRoot t).leaves.map Place.mark))
    (hq : q ∈ among [] ((Place.ofRoot t).leaves.map Place.mark)) : Separate (IsLooseOpener found) p q := by
  have hsorted : ((Place.ofRoot t).leaves.map Place.mark).Pairwise fun a b => a.2.start < b.2.start :=
    List.pairwise_map.mpr hroot.sorted
  have hordered := (among_apart (.start hsorted)).2
  have hltp := hordered p hp
  have hltq := hordered q hq
  by_cases h : p = q
  · rw [← h]
    exact ⟨Nat.ne_of_lt hltp, fun _ => rfl, fun _ hlt => absurd hlt (Nat.lt_irrefl _)⟩
  · have hboth := apart_of_ne hsorted hp hq h
    unfold Apart at hboth
    refine ⟨by omega, fun e => by omega, fun e => ?_⟩
    have hstart : p.closer.start = q.closer.start := congrArg Span.start e
    omega

theorem leaf_of_end {pair : Pair} (h : pair ∈ ofTree t) :
    ∀ s ∈ [pair.opener, pair.closer], ∃ leaf ∈ (Place.ofRoot t).leaves, leaf.span = s ∧
    isDelimiter leaf.kind = true := by
  intro s hs
  rcases mem_ofTree.mp h with h | ⟨p, hp, h⟩
  · obtain ⟨leaf, hleaf, hspan, hbracket⟩ := leaves_of_bracket h s hs
    exact ⟨leaf, hleaf, hspan, isDelimiter_of_not_silent hbracket⟩
  · have hmem := (Place.mem_nodes_iff.mp hp).1
    obtain ⟨leaf, hleaf, hspan, hquote⟩ := leaves_of_node (.of_element hroot hmem h) s hs
    exact ⟨leaf, (Place.leaves_isInfix hmem).subset hleaf, hspan,
      (show ∀ k ∈ quotes, isDelimiter k = true by decide) _ hquote⟩

section
variable (hread : ∀ p ∈ (Place.ofRoot t).nodes, ∀ pair, ofNode? p = some pair →
    Construct.IsRead found p.region)
include hread

theorem separate_nodes {p q : Place} {pair pair' : Pair} (hp : p ∈ (Place.ofRoot t).nodes)
    (hq : q ∈ (Place.ofRoot t).nodes)
    (h : ofNode? p = some pair) (h' : ofNode? q = some pair') :
    Separate (IsLooseOpener found) pair pair' := by
  obtain ⟨hmem, hnode⟩ := Place.mem_nodes_iff.mp hp
  obtain ⟨hmem', hnode'⟩ := Place.mem_nodes_iff.mp hq
  have hdelimits := Delimits.of_element hroot hmem h
  have hdelimits' := Delimits.of_element hroot hmem' h'
  have hends := ends_of_nodes hroot hmem hmem' hdelimits hdelimits'
  have hlt := hdelimits.ordered
  have hlt' := hdelimits'.ordered
  by_cases heq : q = p
  · subst heq
    rw [h] at h'
    cases h'
    exact ⟨Nat.ne_of_lt hlt, fun _ => rfl, fun _ hlt => absurd hlt (Nat.lt_irrefl _)⟩
  · refine ⟨by omega, fun hopener => ?_, fun hcloser hopener => ?_⟩
    · rcases hends with ⟨hin, -⟩ | ⟨hin, -⟩ | hends
      · have := opener_lt_of_inner hroot hmem h h' hin hnode' heq (hread p hp _ h)
        omega
      · have := opener_lt_of_inner hroot hmem' h' h hin hnode (Ne.symm heq) (hread q hq _ h')
        omega
      · omega
    · have hstart : pair.closer.start = pair'.closer.start := congrArg Span.start hcloser
      rcases hends with ⟨hin, -⟩ | hends
      · exact loose_of_inner hroot hmem h h' hin hnode' heq (hread p hp _ h) hcloser
      · omega

theorem distinct_ofTree : Distinct (IsLooseOpener found) (ofTree t) := by
  have hsorted : (ofTree t).Pairwise fun a b => decide (a.opener.start ≤ b.opener.start) = true :=
    List.pairwise_mergeSort (fun a b c => by simpa using Nat.le_trans)
    (fun a b => by simpa using Nat.le_total _ _) _
  refine ⟨hsorted.imp of_decide_eq_true, fun p hp q hq => ?_⟩
  rcases mem_ofTree.mp hp with hp | ⟨np, hnp, hp⟩ <;> rcases mem_ofTree.mp hq with hq | ⟨nq, hnq, hq⟩
  · exact separate_brackets hroot hp hq
  · exact (separate_mixed hroot hp hnq hq).1
  · exact (separate_mixed hroot hq hnp hp).2
  · exact separate_nodes hroot hread hnp hnq hp hq

end

end

end Pair

/-! ## The leaf under a cursor -/

theorem Tiles.adjacent {a b : Span} {ts : List Span} {stop : Nat} : ∀ {ss : List Span} {start : Nat},
    Tiles start (ss ++ a :: b :: ts) stop → b.start = a.stop
  | [], _, h => h.2.1
  | _ :: _, _, h => h.2.adjacent

namespace Place

/-- Where a leaf begins, it is the right one of the leaves that touch the offset, or the only one. -/
theorem leavesAt_start {root leaf : Place} (hroot : InOrder root.leaves) (hleaf : leaf ∈ root.leaves)
    (hkind : leaf.kind ≠ .eof) :
    root.leavesAt leaf.start = .one leaf ∨ ∃ left, root.leavesAt leaf.start = .between left leaf := by
  have hlt := hroot.solid leaf hleaf hkind
  have hbounds := bounds_of_mem_elements (mem_leaves_iff.mp hleaf).1
  have htiles := root.tiles_leaves
  have hpairs := root.pairwise_leaves
  obtain ⟨before, behind, hsplit⟩ := List.append_of_mem hleaf
  have hsorted := hroot.sorted
  rw [hsplit] at htiles hpairs hsorted
  unfold leavesAt
  rw [if_pos ⟨hbounds.1, by omega⟩, hsplit]
  rcases List.eq_nil_or_concat before with rfl | ⟨before, left, rfl⟩
  · left
    rw [List.nil_append, List.dropWhile_cons_of_neg (by simp; omega)]
    cases behind with
    | nil => rfl
    | cons right behind => exact if_neg (by omega)
  · right
    rw [List.concat_eq_append, List.append_assoc, List.singleton_append] at *
    have hadjacent : leaf.start = left.stop := by
      rw [List.map_append] at htiles
      exact htiles.adjacent
    -- the leaves before these two end before the offset, as the left one of the two is not empty
    have hdropped : ∀ a ∈ before, decide (a.stop < leaf.start) = true := by
      intro a ha
      have hle := (List.pairwise_append.mp hpairs).2.2 a ha left (by simp)
      have hlt := (List.pairwise_cons.mp (List.pairwise_append.mp hsorted).2.1).1 leaf (by simp)
      exact decide_eq_true (Nat.lt_of_le_of_lt hle hlt)
    refine ⟨left, ?_⟩
    rw [List.dropWhile_append_of_pos hdropped, List.dropWhile_cons_of_neg (by simp; omega)]
    exact if_pos hadjacent.symm

end Place

namespace Pair

/-- The leaf that a cursor picks, of which the partner is asked for. -/
def picked? (t : Tree) (offset : Nat) : Option Place :=
  ((Place.ofRoot t).leavesAt offset).best? fun k => if isDelimiter k then 1 else 0

theorem matching_eq (t : Tree) (offset : Nat) :
    matching? t offset = ((picked? t offset).map Place.span).bind (partnerIn? (ofTree t)) := by
  rw [Option.bind_map]
  rfl

theorem picked_start {t : Tree} {leaf : Place} (hroot : Place.InOrder (Place.ofRoot t).leaves)
    (hleaf : leaf ∈ (Place.ofRoot t).leaves) (hkind : isDelimiter leaf.kind = true) :
    picked? t leaf.start = some leaf := by
  have hne : leaf.kind ≠ .eof := fun e => by rw [e] at hkind; cases hkind
  unfold picked?
  rcases Place.leavesAt_start hroot hleaf hne with h | ⟨left, h⟩ <;> rw [h]
  · rfl
  · have hscore : (if isDelimiter left.kind then 1 else 0) ≤ if isDelimiter leaf.kind then 1 else 0 := by
      rw [if_pos hkind]
      split <;> omega
    exact congrArg some (if_pos hscore)

end Pair

namespace Parse

/-- Where a delimiter has a partner, the partner of the partner is the delimiter, or the opener of
a local macro or a compound string that begins before it and is found to be unterminated. -/
theorem matching_back (text : List Char) (hsize : byteSize text ≤ maxOffset) (offset : Nat) :
    let p := ofText text
    ∀ leaf r, Pair.picked? p.tree offset = some leaf → Pair.matching? p.tree offset = some r →
      Pair.matching? p.tree r.start = some leaf.span ∨
        ∃ f ∈ p.findings, (f.problem = .unterminatedLocalMacro ∨ f.problem = .unterminatedCompoundString) ∧
          f.span.start < leaf.start ∧ Pair.matching? p.tree r.start = some f.span := by
  intro p leaf r hleaf hr
  have horder := inOrder_leaves text hsize
  have hread : ∀ q ∈ p.root.nodes, ∀ pair, Pair.ofNode? q = some pair → Construct.IsRead p.findings q.region :=
    fun q hq pair h => isRead_of_pair hsize hq h
  rw [Pair.matching_eq, hleaf, Option.map_some, Option.bind_some] at hr
  obtain ⟨before, pair, behind, hpairs, hpartner, -⟩ := Pair.partnerIn_eq_some hr
  have hend : r ∈ [pair.opener, pair.closer] := by
    rcases Pair.partner_eq_some hpartner with ⟨-, rfl⟩ | ⟨-, rfl⟩ <;> simp
  have hmem : pair ∈ Pair.ofTree p.tree := by
    rw [hpairs]
    exact List.mem_append_right before List.mem_cons_self
  obtain ⟨other, hother, rfl, hkind⟩ := Pair.leaf_of_end horder hmem r hend
  have hback : Pair.matching? p.tree other.start = Pair.partnerIn? (Pair.ofTree p.tree) other.span := by
    rw [Pair.matching_eq, Pair.picked_start horder hother hkind]
    rfl
  change Pair.matching? p.tree other.start = _ ∨ ∃ f ∈ p.findings, _ ∧ _ ∧
    Pair.matching? p.tree other.start = _
  rw [hback]
  rcases (Pair.distinct_ofTree horder hread).back hr with h | ⟨o, ⟨f, hf, hproblem, rfl⟩, hlt, h⟩
  · exact .inl h
  · exact .inr ⟨f, hf, hproblem, hlt, h⟩

/-- Two macros, the outer one open, end at one quote. -/
theorem pairs_of_shared_closer :
    Pair.ofTree (ofText "display `a`b'\n".toList).tree = [⟨⟨8, 9⟩, ⟨12, 13⟩⟩, ⟨⟨10, 11⟩, ⟨12, 13⟩⟩] := by
  have hpairs : Pair.brackets [] (ofText "display `a`b'\n".toList).root.leaves ++
      (ofText "display `a`b'\n".toList).root.nodes.filterMap Pair.ofNode? =
        [⟨⟨8, 9⟩, ⟨12, 13⟩⟩, ⟨⟨10, 11⟩, ⟨12, 13⟩⟩] := by decide +kernel
  have hsorted := congrArg (List.mergeSort · fun a b => a.opener.start ≤ b.opener.start) hpairs
  exact hsorted.trans (List.mergeSort_of_pairwise (by simp))

theorem matching_back_closer :
    let text := "display `a`b'\n".toList
    let p := ofText text
    byteSize text ≤ maxOffset ∧ ∃ leaf r, Pair.picked? p.tree 12 = some leaf ∧
    Pair.matching? p.tree 12 = some r ∧
      (Pair.matching? p.tree r.start = some leaf.span ∨
        ∃ f ∈ p.findings, (f.problem = .unterminatedLocalMacro ∨ f.problem = .unterminatedCompoundString) ∧
          f.span.start < leaf.start ∧ Pair.matching? p.tree r.start = some f.span) := by
  have hsize : byteSize "display `a`b'\n".toList ≤ maxOffset := by decide
  have hspan : (Pair.picked? (ofText "display `a`b'\n".toList).tree 12).map Place.span = some ⟨12, 13⟩ := by
    decide +kernel
  have hmatching : Pair.matching? (ofText "display `a`b'\n".toList).tree 12 = some ⟨8, 9⟩ := by
    rw [Pair.matching_eq, hspan, pairs_of_shared_closer]
    rfl
  obtain ⟨leaf, hleaf, -⟩ := Option.map_eq_some_iff.mp hspan
  exact ⟨hsize, leaf, _, hleaf, hmatching, matching_back _ hsize 12 leaf _ hleaf hmatching⟩

/-- From the opener of the inner macro the way leads to the shared quote, and from there to the
outer opener. -/
theorem matching_not_back : ∃ leaf r, Pair.picked? (ofText "display `a`b'\n".toList).tree 10 = some leaf ∧
    Pair.matching? (ofText "display `a`b'\n".toList).tree 10 = some r ∧
      Pair.matching? (ofText "display `a`b'\n".toList).tree r.start ≠ some leaf.span := by
  have hspan : (Pair.picked? (ofText "display `a`b'\n".toList).tree 10).map Place.span = some ⟨10, 11⟩ := by
    decide +kernel
  have hback : (Pair.picked? (ofText "display `a`b'\n".toList).tree 12).map Place.span = some ⟨12, 13⟩ := by
    decide +kernel
  obtain ⟨leaf, hleaf, hleafspan⟩ := Option.map_eq_some_iff.mp hspan
  refine ⟨leaf, ⟨12, 13⟩, hleaf, ?_, ?_⟩
  · rw [Pair.matching_eq, hspan, pairs_of_shared_closer]
    rfl
  · rw [Pair.matching_eq, hback, pairs_of_shared_closer, hleafspan]
    decide

end Parse

end Dofile
