import Dofile.Proofs.Highlights
import Mathlib.Data.List.Chain

/-!
# Highlighting as a colouring

What a leaf looks like is said by its place alone, and the ranges are that colouring with the runs of one capture drawn
together: each byte of a leaf with a capture lies in one range, all others in none, and ranges that touch differ.
-/

namespace Dofile

/-! ## Runs that touch -/

namespace Highlight

def Differ (a b : Highlight) : Prop := a.span.stop = b.span.start → a.capture ≠ b.capture

/-- The first of the joined ranges begins like the current one, and neighbours differ. -/
theorem isChain_joinFrom (hs : List Highlight) (current : Highlight) :
    ∃ r rs, joinFrom current hs = r :: rs ∧ r.span.start = current.span.start ∧ r.capture = current.capture ∧
      (r :: rs).IsChain Differ := by
  induction hs generalizing current with
  | nil => exact ⟨current, [], rfl, rfl, rfl, .singleton _⟩
  | cons next hs ih =>
    rw [joinFrom]
    split
    · exact ih ⟨⟨current.span.start, next.span.stop⟩, current.capture⟩
    · next hdiffer =>
      obtain ⟨r, rs, hjoin, hstart, hcapture, hchain⟩ := ih next
      refine ⟨current, r :: rs, by rw [hjoin], rfl, rfl, .cons_cons (fun htouch hsame => ?_) hchain⟩
      exact hdiffer ⟨hsame.trans hcapture, htouch.trans hstart⟩

theorem isChain_join (hs : List Highlight) : (join hs).IsChain Differ := by
  cases hs with
  | nil => exact .nil
  | cons first hs =>
    obtain ⟨r, rs, hjoin, -, -, hchain⟩ := isChain_joinFrom hs first
    rw [join, hjoin]
    exact hchain

/-- Only neighbours can touch where ranges are in order and none is empty. -/
theorem pairwise_differ {rs : List Highlight} (hchain : rs.IsChain Differ)
    (hsolid : ∀ r ∈ rs, r.span.start < r.span.stop)
    (hapart : rs.Pairwise fun a b => a.span.stop ≤ b.span.start) : rs.Pairwise Differ := by
  induction rs with
  | nil => exact .nil
  | cons a rs ih =>
    rw [List.pairwise_cons] at hapart
    rw [List.forall_mem_cons] at hsolid
    refine .cons (fun b hb => ?_) (ih hchain.tail hsolid.2 hapart.2)
    cases rs with
    | nil => cases hb
    | cons next rs =>
      rcases List.mem_cons.mp hb with rfl | hb
      · exact hchain.rel
      · -- the next range stands between the two
        intro htouch
        have hbefore := hapart.1 next List.mem_cons_self
        have hnext := hsolid.2 next List.mem_cons_self
        have hbehind := (List.pairwise_cons.mp hapart.2).1 b hb
        omega

end Highlight

theorem Tiles.exists_mem {offset stop : Nat} : ∀ {start : Nat} {ss : List Span}, Tiles start ss stop →
    start ≤ offset → offset < stop → ∃ s ∈ ss, s.start ≤ offset ∧ offset < s.stop
  | _, [], h, hstart, hstop => absurd (h ▸ hstart) (Nat.not_le.mpr hstop)
  | _, s :: ss, h, hstart, hstop => by
    by_cases hin : offset < s.stop
    · exact ⟨s, List.mem_cons_self, h.1 ▸ hstart, hin⟩
    · obtain ⟨t, ht, hoffset⟩ := h.2.exists_mem (Nat.not_lt.mp hin) hstop
      exact ⟨t, List.mem_cons_of_mem s ht, hoffset⟩

/-! ## What a leaf looks like -/

/-- What leaves of a kind look like, wherever they stand. -/
inductive Capture.OfKind : Kind → Capture → Prop
  | storageType : OfKind .typeKeyword .storageType
  | keyword {k : Kind} (h : k.isKeyword = true) : OfKind k .keyword
  | number : OfKind .number .number
  | missingValue : OfKind .missingValue .number
  | builtin : OfKind .builtinVariable .builtin
  | operator : OfKind .operator .operator

/-- What nodes make all leaves in them look like. -/
inductive Capture.OfNode : Kind → Capture → Prop
  | string : OfNode .doubleString .string
  | globalMacro : OfNode .globalMacro .globalMacro
  | compoundString (label : Fin depthCycle) : OfNode (.compoundString label) (.compoundString (label + 1))
  | localMacro (label : Fin depthCycle) : OfNode (.localMacro label) (.localMacro (label + 1))

namespace Place

/-- Whether a leaf can have another capture than that of comments. -/
def IsWord (p : Place) : Prop :=
  p.kind.isComment = false ∧ p.kind ∉ [.whitespace, .newline, .eof, .mataContent]

/-- What a leaf looks like: comments come first, then the innermost string or macro reference around the leaf, then
its kind. Names are functions where they name a command or a program. -/
inductive LooksLike (p : Place) : Capture → Prop
  | comment (h : p.kind.isComment = true) : LooksLike p .comment
  | inner {n : Place} {capture : Capture} (h : p.IsWord) (hn : p.innermost? = some n)
      (hcapture : Capture.OfNode n.kind capture) : LooksLike p capture
  | plain {capture : Capture} (h : p.IsWord) (hplain : p.innermost? = none) (hcapture : Capture.OfKind p.kind capture) :
      LooksLike p capture
  | function {name owner : Place} (hplain : p.innermost? = none) (hkind : p.kind = .ident)
      (hname : p.parent? = some name) (hnameKind : name.kind = .name) (howner : name.parent? = some owner)
      (hownerKind : owner.kind = .command ∨ owner.kind = .programDefinition) : LooksLike p .function

end Place

theorem Capture.ofDelimited_eq_some_iff {k : Kind} {capture : Capture} :
    ofDelimited? k = some capture ↔ OfNode k capture := by
  constructor
  · intro h
    cases k <;> cases h <;> constructor
  · rintro (_ | _ | _ | _) <;> rfl

theorem Capture.exists_of_delimited {k : Kind} (h : k.isDelimited = true) :
    ∃ capture, ofDelimited? k = some capture := by
  cases k <;> first | exact ⟨_, rfl⟩ | cases h

theorem Capture.ofPlain_eq_some_iff {k : Kind} {ancestors : List Kind} {capture : Capture} :
    ofPlain? k ancestors = some capture ↔ OfKind k capture ∨ capture = .function ∧ k = .ident ∧
      ∃ outer, ancestors = .name :: .command :: outer ∨ ancestors = .name :: .programDefinition :: outer := by
  unfold ofPlain?
  constructor
  · intro h
    split at h
    · next hk =>
      cases h
      rw [beq_iff_eq.mp hk]
      exact .inl .storageType
    · split at h
      · next hk =>
        cases h
        exact .inl (.keyword hk)
      · split at h <;> cases h
        · exact .inl .number
        · exact .inl .missingValue
        · exact .inl .builtin
        · exact .inl .operator
        · exact .inr ⟨rfl, rfl, _, .inl rfl⟩
        · exact .inr ⟨rfl, rfl, _, .inr rfl⟩
  · rintro (h | ⟨rfl, rfl, outer, rfl | rfl⟩)
    · cases h with
      | keyword hk => rw [if_neg (by rintro h; rw [beq_iff_eq.mp h] at hk; cases hk), if_pos hk]
      | _ => rfl
    · rfl
    · rfl

namespace Place

variable {p : Place} {capture : Capture}

theorem ofKinds_of_word (h : p.IsWord) (ancestors : List Kind) : Capture.ofKinds? p.kind ancestors =
    (ancestors.findSome? Capture.ofDelimited?).or (Capture.ofPlain? p.kind ancestors) := by
  obtain ⟨hcomment, hblank⟩ := h
  unfold Capture.ofKinds?
  rw [hcomment]
  split
  · contradiction
  · split <;> first | rfl | (rename_i hk; exact absurd (by rw [hk]; decide) hblank)

/-- A leaf with a capture is a comment, or its capture is that of a word. -/
theorem word_cases (h : Capture.ofKinds? p.kind p.parentKinds = some capture) :
    p.kind.isComment = true ∧ capture = .comment ∨ p.IsWord := by
  unfold Capture.ofKinds? at h
  split at h
  · next hcomment => exact .inl ⟨hcomment, (Option.some.inj h).symm⟩
  · next hcomment =>
    refine .inr ⟨by simpa using hcomment, fun hmem => ?_⟩
    split at h
    · cases h
    · cases h
    · cases h
    · cases h
    · simp_all

/-- The kinds above a name of a command or a program. -/
theorem parentKinds_eq_cons_iff {k k' : Kind} : (∃ outer, p.parentKinds = k :: k' :: outer) ↔
    ∃ q r, p.parent? = some q ∧ q.kind = k ∧ q.parent? = some r ∧ r.kind = k' := by
  obtain ⟨tree, start, above⟩ := p
  match above with
  | [] => simp [parentKinds, parent?]
  | [c] => simp [parentKinds, parent?]
  | c :: d :: above => simp [parentKinds, parent?, Crumb.plug, kind, Tree.kind]

theorem looksLike_iff : p.LooksLike capture ↔ Capture.ofKinds? p.kind p.parentKinds = some capture := by
  constructor
  · intro h
    cases h with
    | comment h =>
      unfold Capture.ofKinds?
      rw [if_pos h]
    | inner h hn hcapture =>
      rw [ofKinds_of_word h, findSome_parentKinds, hn, Option.bind_some, Capture.ofDelimited_eq_some_iff.mpr hcapture]
      rfl
    | plain h hn hcapture =>
      rw [ofKinds_of_word h, findSome_parentKinds, hn]
      exact Capture.ofPlain_eq_some_iff.mpr (.inl hcapture)
    | function hn hkind hname hnameKind howner hownerKind =>
      have h : p.IsWord := by
        rw [IsWord, hkind]
        decide
      have habove : ∃ outer, p.parentKinds = .name :: .command :: outer ∨
          p.parentKinds = .name :: .programDefinition :: outer := by
        rw [exists_or, parentKinds_eq_cons_iff, parentKinds_eq_cons_iff]
        exact hownerKind.imp (fun e => ⟨_, _, hname, hnameKind, howner, e⟩)
          fun e => ⟨_, _, hname, hnameKind, howner, e⟩
      rw [ofKinds_of_word h, findSome_parentKinds, hn]
      exact Capture.ofPlain_eq_some_iff.mpr (.inr ⟨rfl, hkind, habove⟩)
  · intro h
    rcases word_cases h with ⟨hcomment, rfl⟩ | hword
    · exact .comment hcomment
    rw [ofKinds_of_word hword, findSome_parentKinds] at h
    cases hn : p.innermost? with
    | some n =>
      -- a string or a macro reference always has a capture, so the kind of the leaf is not asked for
      have hdelimited := List.find?_some (p := fun q : Place => q.kind.isDelimited) hn
      obtain ⟨inner, hinner⟩ := Capture.exists_of_delimited hdelimited
      rw [hn, Option.bind_some, hinner] at h
      cases h
      exact .inner hword hn (Capture.ofDelimited_eq_some_iff.mp hinner)
    | none =>
      rw [hn, Option.bind_none, Option.none_or, Capture.ofPlain_eq_some_iff] at h
      rcases h with h | ⟨rfl, hkind, outer, habove⟩
      · exact .plain hword hn h
      · have hparents : ∃ name owner, p.parent? = some name ∧ name.kind = .name ∧ name.parent? = some owner ∧
            (owner.kind = .command ∨ owner.kind = .programDefinition) := by
          rcases habove with habove | habove <;>
            obtain ⟨name, owner, hname, hnameKind, howner, hkind⟩ := parentKinds_eq_cons_iff.mp ⟨outer, habove⟩
          · exact ⟨name, owner, hname, hnameKind, howner, .inl hkind⟩
          · exact ⟨name, owner, hname, hnameKind, howner, .inr hkind⟩
        obtain ⟨name, owner, hname, hnameKind, howner, hownerKind⟩ := hparents
        exact .function hn hkind hname hnameKind howner hownerKind

theorem LooksLike.ne_eof (h : p.LooksLike capture) : p.kind ≠ .eof := by
  intro hkind
  rw [looksLike_iff, hkind] at h
  cases h

end Place

/-! ## The ranges as a colouring -/

namespace Highlight

theorem ofLeaf_eq_some_iff {leaf : Place} {x : Highlight} :
    ofLeaf? leaf = some x ↔ leaf.LooksLike x.capture ∧ x.span = leaf.span := by
  obtain ⟨span, capture⟩ := x
  rw [ofLeaf?, Option.map_eq_some_iff, Place.looksLike_iff]
  constructor
  · rintro ⟨capture, hcapture, h⟩
    cases h
    exact ⟨hcapture, rfl⟩
  · rintro ⟨hcapture, rfl⟩
    exact ⟨capture, hcapture, rfl⟩

section
variable {t : Tree}

/-- Each byte of a range is one of a leaf that looks like the range. -/
theorem exists_leaf {r : Highlight} (hr : r ∈ ofTree t) {offset : Nat} (hstart : r.span.start ≤ offset)
    (hstop : offset < r.span.stop) :
    ∃ leaf ∈ (Place.ofRoot t).leaves, leaf.LooksLike r.capture ∧ leaf.start ≤ offset ∧ offset < leaf.stop := by
  obtain ⟨groups, hgroups, hflat⟩ := groups_join ((Place.ofRoot t).leaves.filterMap ofLeaf?)
  obtain ⟨g, hg, hmem⟩ := exists_group hgroups hr
  obtain ⟨s, hs, hoffset⟩ := hg.tiles.exists_mem hstart hstop
  obtain ⟨x, hx, rfl⟩ := List.mem_map.mp hs
  obtain ⟨leaf, hleaf, hlook⟩ := List.mem_filterMap.mp (hflat ▸ hmem x hx)
  obtain ⟨hlook, hspan⟩ := ofLeaf_eq_some_iff.mp hlook
  rw [hspan] at hoffset
  exact ⟨leaf, hleaf, hg.captures x hx ▸ hlook, hoffset⟩

/-- A leaf without a capture meets no range. -/
theorem not_meets {leaf : Place} (hleaf : leaf ∈ (Place.ofRoot t).leaves)
    (hnone : ∀ capture, ¬leaf.LooksLike capture) {offset : Nat} (hstart : leaf.start ≤ offset)
    (hstop : offset < leaf.stop) :
    ∀ r ∈ ofTree t, ¬(r.span.start ≤ offset ∧ offset < r.span.stop) := by
  intro r hr hin
  obtain ⟨other, hother, hlook, hstart', hstop'⟩ := exists_leaf hr hin.1 hin.2
  by_cases heq : leaf = other
  · exact hnone _ (heq ▸ hlook)
  · have hapart := rel_of_pairwise (Place.ofRoot t).pairwise_leaves hleaf hother heq
    omega

variable (horder : Place.InOrder (Place.ofRoot t).leaves)
include horder

/-- No range is empty, as only the end of the text is an empty leaf, and it has no capture. -/
theorem solid_ofTree : ∀ r ∈ ofTree t, r.span.start < r.span.stop := by
  intro r hr
  obtain ⟨groups, hgroups, hflat⟩ := groups_join ((Place.ofRoot t).leaves.filterMap ofLeaf?)
  obtain ⟨g, hg, hmem⟩ := exists_group hgroups hr
  have hsolid : ∀ x ∈ g, x.span.start < x.span.stop := by
    intro x hx
    obtain ⟨leaf, hleaf, hlook⟩ := List.mem_filterMap.mp (hflat ▸ hmem x hx)
    obtain ⟨hlook, hspan⟩ := ofLeaf_eq_some_iff.mp hlook
    rw [hspan]
    exact horder.solid leaf hleaf hlook.ne_eof
  obtain ⟨x, hx⟩ := List.exists_mem_of_ne_nil g hg.nonempty
  have hbounds := (hg.tiles.bounds (List.forall_mem_map.mpr fun y hy => Nat.le_of_lt (hsolid y hy))).2
    x.span (List.mem_map_of_mem hx)
  have hlt := hsolid x hx
  omega

theorem pairwise_differ_ofTree : (ofTree t).Pairwise Differ :=
  pairwise_differ (isChain_join _) (solid_ofTree horder) (pairwise_ofTree t)

/-- Ranges that touch differ, whichever of the two is named first. -/
theorem differ_of_mem {a b : Highlight} (ha : a ∈ ofTree t) (hb : b ∈ ofTree t)
    (htouch : a.span.stop = b.span.start) : a.capture ≠ b.capture := by
  have hsolid := solid_ofTree horder a ha
  have hsolid' := solid_ofTree horder b hb
  have hne : a ≠ b := by
    rintro rfl
    omega
  have hboth := (pairwise_ofTree t).and (pairwise_differ_ofTree horder)
  rcases rel_of_pairwise hboth ha hb hne with ⟨-, hdiffer⟩ | ⟨hapart, -⟩
  · exact hdiffer htouch
  · omega

end

end Highlight

namespace Parse

/-- The highlighted ranges are not empty, in order and apart. Each byte of a leaf with a capture lies in one range,
which has that capture, and no byte of any other leaf lies in a range. Two ranges that touch have different
captures. -/
theorem highlights_colour (text : List Char) (hsize : byteSize text ≤ maxOffset) :
    let root := (ofText text).root
    let ranges := Highlight.ofTree (ofText text).tree
    (∀ r ∈ ranges, r.span.start < r.span.stop) ∧
    ranges.Pairwise (fun a b => a.span.start < b.span.start ∧ a.span.stop ≤ b.span.start) ∧
    (∀ leaf ∈ root.leaves, ∀ offset, leaf.start ≤ offset → offset < leaf.stop →
      (∀ capture, leaf.LooksLike capture → ∃ r ∈ ranges, (r.span.start ≤ offset ∧ offset < r.span.stop) ∧
        r.capture = capture ∧ ∀ r' ∈ ranges, r'.span.start ≤ offset ∧ offset < r'.span.stop → r' = r) ∧
      ((∀ capture, ¬leaf.LooksLike capture) →
        ∀ r ∈ ranges, ¬(r.span.start ≤ offset ∧ offset < r.span.stop))) ∧
    ∀ a ∈ ranges, ∀ b ∈ ranges, a.span.stop = b.span.start → a.capture ≠ b.capture := by
  intro root ranges
  have horder := inOrder_leaves text hsize
  have hsolid := Highlight.solid_ofTree horder
  refine ⟨hsolid, ?_, fun leaf hleaf offset hstart hstop => ⟨fun capture hlook => ?_, fun hnone => ?_⟩,
    fun a ha b hb => Highlight.differ_of_mem horder ha hb⟩
  · refine (Highlight.pairwise_ofTree _).imp_of_mem fun {a b} ha _ hab => ?_
    have hlt := hsolid a ha
    omega
  · obtain ⟨r, hr, hcontains, hcapture, honly⟩ := Highlight.range_of_leaf hleaf (Place.looksLike_iff.mp hlook)
    refine ⟨r, hr, ⟨Nat.le_trans hcontains.1 hstart, Nat.lt_of_lt_of_le hstop hcontains.2⟩, hcapture, ?_⟩
    intro r' hr' hin
    exact honly r' hr' (by omega) (by omega)
  · exact Highlight.not_meets hleaf hnone hstart hstop

theorem highlights_colour_mixed :
    let text := "quietly disp \"a`b'c\" + `\"x\"' // y\nprogram p /* z */\nlocal n = .\nend\nmata: 1 ".toList
    let root := (ofText text).root
    let ranges := Highlight.ofTree (ofText text).tree
    byteSize text ≤ maxOffset ∧
    (∀ r ∈ ranges, r.span.start < r.span.stop) ∧
    ranges.Pairwise (fun a b => a.span.start < b.span.start ∧ a.span.stop ≤ b.span.start) ∧
    (∀ leaf ∈ root.leaves, ∀ offset, leaf.start ≤ offset → offset < leaf.stop →
      (∀ capture, leaf.LooksLike capture → ∃ r ∈ ranges, (r.span.start ≤ offset ∧ offset < r.span.stop) ∧
        r.capture = capture ∧ ∀ r' ∈ ranges, r'.span.start ≤ offset ∧ offset < r'.span.stop → r' = r) ∧
      ((∀ capture, ¬leaf.LooksLike capture) →
        ∀ r ∈ ranges, ¬(r.span.start ≤ offset ∧ offset < r.span.stop))) ∧
    ∀ a ∈ ranges, ∀ b ∈ ranges, a.span.stop = b.span.start → a.capture ≠ b.capture := by
  have hsize : byteSize
      "quietly disp \"a`b'c\" + `\"x\"' // y\nprogram p /* z */\nlocal n = .\nend\nmata: 1 ".toList ≤ maxOffset := by
    decide
  exact ⟨hsize, highlights_colour _ hsize⟩

end Parse

end Dofile
