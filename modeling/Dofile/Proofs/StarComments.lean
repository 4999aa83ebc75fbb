import Dofile.Proofs.Blanks
import Dofile.Proofs.Reports
import Dofile.Proofs.Stars

/-!
# Comments that begin with a star

What is a comment of this sort can be told from the text alone, but for the stars in block comments and
in mata blocks: it begins with a star that has only blanks before it on its line.
-/

namespace Dofile

def StarAt (text : List Char) (offset : Nat) : Prop :=
  ∃ head blanks after, text = head ++ blanks ++ '*' :: after ∧ byteSize (head ++ blanks) = offset ∧
    (∀ c ∈ head.getLast?, c = '\n' ∨ c = '\r') ∧ ∀ c ∈ blanks, c = ' ' ∨ c = '\t'

theorem freshAfter_iff {before : List Char} : freshAfter true before = true ↔ ∃ head blanks, before = head ++ blanks ∧
    (∀ c ∈ head.getLast?, c = '\n' ∨ c = '\r') ∧ ∀ c ∈ blanks, c = ' ' ∨ c = '\t' := by
  constructor
  · intro h
    induction before using List.reverseRecOn with
    | nil => exact ⟨[], [], rfl, nofun, nofun⟩
    | append_singleton before c ih =>
      rw [freshAfter_append] at h
      simp only [freshAfter, List.foldl_cons, List.foldl_nil, Bool.or_eq_true, Bool.and_eq_true] at h
      rcases h with hbreak | ⟨hfresh, hblank⟩
      · refine ⟨before ++ [c], [], (List.append_nil _).symm, ?_, nofun⟩
        simpa [isLineBreak] using hbreak
      · obtain ⟨head, blanks, rfl, hhead, hblanks⟩ := ih hfresh
        refine ⟨head, blanks ++ [c], List.append_assoc .., hhead, fun d hd => ?_⟩
        rcases List.mem_append.mp hd with hd | hd
        · exact hblanks d hd
        · rw [List.mem_singleton.mp hd]
          simpa [isBlank] using hblank
  · rintro ⟨head, blanks, rfl, hhead, hblanks⟩
    rw [freshAfter_append, Lexer.freshAfter_blanks _ fun c hc => by simpa [isBlank] using hblanks c hc]
    rcases List.eq_nil_or_concat head with rfl | ⟨front, c, rfl⟩
    · rfl
    · rw [List.concat_eq_append] at hhead ⊢
      have hc : isLineBreak c = true := by simpa [isLineBreak] using hhead
      rw [freshAfter_append]
      simp [freshAfter, hc]

theorem starAt_iff {text : List Char} {offset : Nat} : StarAt text offset ↔
    ∃ before after, text = before ++ '*' :: after ∧ byteSize before = offset ∧ freshAfter true before = true := by
  constructor
  · rintro ⟨head, blanks, after, htext, hoffset, hhead, hblanks⟩
    exact ⟨head ++ blanks, after, htext, hoffset, freshAfter_iff.mpr ⟨head, blanks, rfl, hhead, hblanks⟩⟩
  · rintro ⟨before, after, htext, hoffset, hfresh⟩
    obtain ⟨head, blanks, rfl, hhead, hblanks⟩ := freshAfter_iff.mp hfresh
    exact ⟨head, blanks, after, htext, hoffset, hhead, hblanks⟩

namespace Lexer

variable {l : Lexer}

/-- What is no word is taken as it is. -/
theorem TakenAs.eq_kind {kind : Kind} (h : l.TakenAs kind) (hk : Word.kinds.contains l.kind = false) :
    kind = l.kind := by
  refine h.2.resolve_right fun hword => ?_
  rw [IsWord, hk] at hword
  cases hword.1

/-- What no word is taken as has been read as that. -/
theorem TakenAs.kind_eq {kind : Kind} (h : l.TakenAs kind) (hk : kind ∉ Kind.wordLabels) : l.kind = kind :=
  h.2.elim Eq.symm fun hword => absurd hword.2 hk

/-- The token that a star at the start of a line stands in. -/
theorem Stands.cases_of_star {text front x y after : List Char} (h : l.Stands text)
    (htext : text = front ++ (x ++ '*' :: after)) (hstart : l.ahead.start = byteSize front)
    (hahead : l.ahead.text = x ++ '*' :: y) (hfresh : freshAfter true (front ++ x) = true) :
    l.kind = .blockComment ∨ l.kind = .mataContent ∨
      l.AtStar ∧ (∀ c ∈ x, isBlank c = true) ∧ l.body = x ++ '*' :: after := by
  obtain ⟨before, hcut, hbefore⟩ := h.cut_body
  rw [hstart, htext, cutBytes_byteSize] at hcut
  obtain ⟨rfl, hbody⟩ : front = before ∧ x ++ '*' :: after = l.body := by simpa using hcut
  rw [freshAfter_append, hbefore] at hfresh
  by_cases hone : OneLine l.ahead.text
  · have hx : OneLine x := fun c hc => hone c (by rw [hahead]; exact List.mem_append_left _ hc)
    obtain ⟨hat, hblanks⟩ := atStar_of_passed hbody.symm hx hfresh rfl
    exact .inr (.inr ⟨hat, hblanks, hbody.symm⟩)
  have hacross : l.kind ∈ Kind.acrossLines := Classical.byContradiction fun hk => hone (oneLine_text hk)
  simp only [Kind.acrossLines, List.mem_cons, List.not_mem_nil, or_false] at hacross
  rcases hacross with hk | hk | hk
  · have hbreak := (breaks_of_newline hk).2 '*' (by rw [hahead]; simp)
    exact absurd hbreak (by decide)
  · exact .inl hk
  · exact .inr (.inl hk)

end Lexer

namespace Place

theorem stop_eq_byteSize (p : Place) : p.stop = p.start + byteSize p.text :=
  congrArg (p.start + ·) (Tree.size_eq_byteSize p.tree)

/-- A character of a text stands in one of the leaves that the text is cut into. -/
theorem exists_of_tiles {c : Char} {after : List Char} {stop : Nat} {ps : List Place} {start : Nat} {before : List Char}
    (h : Tiles start (ps.map span) stop) (htext : ps.flatMap text = before ++ c :: after) :
    ∃ p ∈ ps, ∃ front x y, p.text = x ++ c :: y ∧ before = front ++ x ∧ p.start = start + byteSize front := by
  induction ps generalizing start before with
  | nil => simp at htext
  | cons p ps ih =>
    obtain ⟨rfl, hrest⟩ := h
    rw [List.flatMap_cons] at htext
    have hlater : ∀ before', before = p.text ++ before' → ps.flatMap text = before' ++ c :: after →
        ∃ q ∈ p :: ps, ∃ front x y, q.text = x ++ c :: y ∧ before = front ++ x ∧
          q.start = p.start + byteSize front := by
      intro before' hbefore htext
      obtain ⟨q, hq, front, x, y, hqtext, rfl, hstart⟩ := ih hrest htext
      refine ⟨q, List.mem_cons_of_mem p hq, p.text ++ front, x, y, hqtext, ?_, ?_⟩
      · rw [hbefore, List.append_assoc]
      · rw [hstart, byteSize_append, ← Nat.add_assoc]
        exact congrArg (· + byteSize front) p.stop_eq_byteSize
    rcases List.append_eq_append_iff.mp htext with ⟨before', hbefore, htext⟩ | ⟨y, hp, htext⟩
    · exact hlater before' hbefore htext
    · cases y with
      | nil => exact hlater [] (by simpa using hp.symm) htext.symm
      | cons d y =>
        obtain ⟨rfl, -⟩ := List.cons.inj htext
        exact ⟨p, List.mem_cons_self, [], before, y, hp, rfl, rfl⟩

end Place

namespace Parse

section
variable {text : List Char} {items : List Item} {l : Lexer}
  (h : (Reading.lines text.length).leads (.ofText text) items l) (hsize : byteSize text ≤ maxOffset)
include h hsize

/-- The token that a leaf is. -/
theorem exists_taken {leaf : Place} (hleaf : leaf ∈ (ofText text).root.leaves) (hsolid : leaf.kind ≠ .whitespace)
    (hend : leaf.kind ≠ .eof) : ∃ t ∈ Item.takenAll items, leaf.tree = .leaf t.2 t.1.ahead.text ∧
      leaf.span = t.1.ahead.span ∧ t.1.Stands text ∧ t.1.TakenAs t.2 := by
  have hregion : leaf.region ∈ ((ofText text).root.leaves.map Place.region).filter (·.1.kind != .whitespace) :=
    List.mem_filter.mpr ⟨List.mem_map_of_mem hleaf, bne_iff_ne.mpr hsolid⟩
  rw [regions_leaves h hsize, List.mem_append, List.mem_singleton] at hregion
  have htaken := hregion.resolve_right fun heof => hend (congrArg (·.1.kind) heof)
  obtain ⟨t, ht, heq⟩ := List.mem_map.mp htaken
  obtain ⟨htree, hspan⟩ := Prod.mk.inj heq
  obtain ⟨hstands, htakenAs⟩ := ((account_of_lines h).stands (Lexer.stands_ofText text)).2 t ht
  exact ⟨t, ht, htree.symm, hspan.symm, hstands, htakenAs⟩

/-- Where no word is taken as what a leaf is, that has been read. -/
theorem exists_lexed {leaf : Place} (hleaf : leaf ∈ (ofText text).root.leaves)
    (hk : leaf.kind ∉ .whitespace :: .eof :: Kind.wordLabels) : ∃ t : Lexer, t.Stands text ∧ t.kind = leaf.kind ∧
      leaf.text = t.ahead.text ∧ leaf.span = t.ahead.span := by
  simp only [List.mem_cons, not_or] at hk
  obtain ⟨t, -, htree, hspan, hstands, htakenAs⟩ := exists_taken h hsize hleaf hk.1 hk.2.1
  have hkind : leaf.kind = t.2 := congrArg Tree.kind htree
  exact ⟨t.1, hstands, (htakenAs.kind_eq (hkind ▸ hk.2.2)).trans hkind.symm, congrArg Tree.text htree, hspan⟩

theorem text_of_eof {leaf : Place} (hleaf : leaf ∈ (ofText text).root.leaves) (hk : leaf.kind = .eof) : leaf.text = [] := by
  obtain ⟨before, last, hleaves, -, htext, hbefore⟩ := (holds_of_lines h hsize).last
  rw [hleaves, List.mem_append, List.mem_singleton] at hleaf
  rcases hleaf with hleaf | rfl
  · exact absurd hk (hbefore leaf hleaf)
  · exact htext

theorem holdsStars : (ofText text).root.tree.All Tree.HoldsStars := by
  have hitems := Reading.keepStars_lines text.length (.inl rfl) h
  have hfile : Item.KeepStars (fileItems items l) :=
    hitems.append (Item.keepStars_item (Lexer.not_atStar_of_endsLine (.inr (kind_of_lines h))))
  rw [tree_of_lines h hsize]
  exact hfile.over .sourceFile (Item.spaced_forest _)

theorem parent_of_star {leaf : Place} (hleaf : leaf ∈ (ofText text).root.leaves) (hk : leaf.kind = .starComment) :
    ∃ parent, leaf.parent? = some parent ∧ parent.kind = .comment := by
  obtain ⟨hmem, hisLeaf⟩ := Place.mem_leaves_iff.mp hleaf
  rcases Place.eq_or_child hmem with rfl | ⟨parent, hparent, i, hi⟩
  · rw [Place.isLeaf, tree_of_lines h hsize] at hisLeaf
    cases hisLeaf
  · refine ⟨parent, (Place.parent_of_child hi).1, ?_⟩
    have hholds := (Place.all_elements (holdsStars h hsize) parent (Place.mem_nodes_iff.mp hparent).1).self
    by_contra hne
    exact hholds hne leaf.tree (Place.tree_mem_children (List.mem_of_getElem? hi)) hk

/-- A character that is no space and no tab stands in a leaf that is a token. -/
theorem leaf_of_char {c : Char} {before after : List Char} (htext : text = before ++ c :: after)
    (hc : c ≠ ' ' ∧ c ≠ '\t') : ∃ leaf ∈ (ofText text).root.leaves, ∃ front x y, leaf.text = x ++ c :: y ∧
      before = front ++ x ∧ leaf.start = byteSize front ∧ byteSize before < leaf.stop ∧
        leaf.kind ≠ .whitespace ∧ leaf.kind ≠ .eof := by
  have hleaves := (holds_of_lines h hsize).leaves_eq
  obtain ⟨leaf, hleaf, front, x, y, hleafText, rfl, hstart⟩ :=
    Place.exists_of_tiles (ofText text).root.tiles_leaves (hleaves.trans htext)
  have hstart : leaf.start = byteSize front := hstart.trans (Nat.zero_add _)
  have hmem : c ∈ leaf.text := by rw [hleafText]; simp
  refine ⟨leaf, hleaf, front, x, y, hleafText, rfl, hstart, ?_, fun hk => ?_, fun hk => ?_⟩
  · have hpos : 0 < c.utf8Size := Char.utf8Size_pos _
    rw [leaf.stop_eq_byteSize, hstart, hleafText, byteSize_append, byteSize_append, byteSize_cons]
    omega
  · rcases (isRun_of_leaf h hsize hleaf hk).2 c hmem with he | he
    · exact hc.1 he
    · exact hc.2 he
  · rw [text_of_eof h hsize hleaf hk] at hmem
    cases hmem

/-- The leaf that a star at the start of a line stands in. -/
theorem leaf_of_star {before after : List Char} (htext : text = before ++ '*' :: after)
    (hfresh : freshAfter true before = true) : ∃ leaf ∈ (ofText text).root.leaves,
      leaf.start ≤ byteSize before ∧ byteSize before < leaf.stop ∧ (leaf.kind = .blockComment ∨ leaf.kind = .mataContent ∨
        leaf.kind = .starComment ∧ leaf.start = byteSize before ∧ lineStop? text (byteSize before) = some leaf.stop) := by
  obtain ⟨leaf, hleaf, front, x, y, hleafText, rfl, hstart, hinside, hsolid, hend⟩ :=
    leaf_of_char h hsize htext (by decide)
  refine ⟨leaf, hleaf, by rw [hstart, byteSize_append]; omega, hinside, ?_⟩
  obtain ⟨t, ht, htree, hspan, hstands, htakenAs⟩ := exists_taken h hsize hleaf hsolid hend
  have hkind : leaf.kind = t.2 := congrArg Tree.kind htree
  have hahead : leaf.text = t.1.ahead.text := congrArg Tree.text htree
  have hplace : t.1.ahead.start = byteSize front := (congrArg Span.start hspan).symm.trans hstart
  rw [List.append_assoc] at htext
  rcases hstands.cases_of_star htext hplace (hahead.symm.trans hleafText) hfresh with hk | hk | ⟨hat, hblanks, hbody⟩
  · exact .inl (hkind.trans ((htakenAs.eq_kind (by rw [hk]; decide)).trans hk))
  · exact .inr (.inl (hkind.trans ((htakenAs.eq_kind (by rw [hk]; decide)).trans hk)))
  rcases (Reading.keepStars_lines text.length (.inl rfl) h).taken t ht hat with hk | hk
  · refine .inr (.inr ⟨hkind.trans hk, ?_⟩)
    have hlexer : t.1.kind = .starComment := (htakenAs.kind_eq (by rw [hk]; decide)).trans hk
    obtain ⟨-, -, rest, hrest, hline⟩ := Lexer.of_starComment hlexer
    rw [hbody] at hrest
    cases x with
    | nil =>
      obtain rfl : after = rest := (List.cons.inj hrest).2
      rw [List.append_nil]
      refine ⟨hstart, ?_⟩
      rw [lineStop?, htext, cutBytes_byteSize, leaf.stop_eq_byteSize, hstart, hahead, hline]
      rfl
    | cons c x =>
      -- a comment begins with its star, so no blank stands before that
      have hc := hblanks c List.mem_cons_self
      rw [(List.cons.inj hrest).1] at hc
      exact absurd hc (by decide)
  · exact .inr (.inl (hkind.trans hk))

end

/-- A star with nothing but spaces and tabs before it on its line is in a block comment or in the content of a mata
block, or else a comment begins with it, which goes on to the end of the line and is a child of a comment node. All
comments of this sort begin with such stars. -/
theorem star_comments_start_lines (text : List Char) (hsize : byteSize text ≤ maxOffset) :
    let root := (ofText text).root
    (∀ offset, StarAt text offset →
      (∃ leaf ∈ root.leaves, (leaf.kind = .blockComment ∨ leaf.kind = .mataContent) ∧
        leaf.start ≤ offset ∧ offset < leaf.stop) ∨
      ∃ leaf ∈ root.leaves, leaf.kind = .starComment ∧ leaf.start = offset ∧ lineStop? text offset = some leaf.stop ∧
        ∃ parent, leaf.parent? = some parent ∧ parent.kind = .comment) ∧
      ∀ leaf ∈ root.leaves, leaf.kind = .starComment → StarAt text leaf.start := by
  intro root
  obtain ⟨items, l, h⟩ := Reading.exists_lines text
  refine ⟨fun offset hstar => ?_, fun leaf hleaf hk => ?_⟩
  · obtain ⟨before, after, htext, rfl, hfresh⟩ := starAt_iff.mp hstar
    obtain ⟨leaf, hleaf, hstart, hstop, hk | hk | ⟨hk, hat, hline⟩⟩ := leaf_of_star h hsize htext hfresh
    · exact .inl ⟨leaf, hleaf, .inl hk, hstart, hstop⟩
    · exact .inl ⟨leaf, hleaf, .inr hk, hstart, hstop⟩
    · exact .inr ⟨leaf, hleaf, hk, hat, hline, parent_of_star h hsize hleaf hk⟩
  · obtain ⟨t, hstands, hkind, -, hspan⟩ := exists_lexed h hsize hleaf (by rw [hk]; decide)
    obtain ⟨-, hat, rest, hbody, -⟩ := Lexer.of_starComment (hkind.trans hk)
    obtain ⟨before, hcut, hfresh⟩ := hstands.cut_body
    obtain ⟨htext, hsizeBefore⟩ := cutBytes_eq_some hcut
    rw [hbody] at htext
    refine starAt_iff.mpr ⟨before, rest, htext.symm, ?_, hfresh.trans hat.1⟩
    exact hsizeBefore.trans (congrArg Span.start hspan).symm

/-- Stars that begin comments, with and without blanks before them and in a program, beside others in a block comment
and behind it, in a mata block and within a line. -/
theorem star_comments_start_lines_mixed :
    let text := "*a\n /* b\n * c */ * d\n\t* e\nprogram p\n * f\nend\nmata\n * g\nend\ngen x = 2 * 3".toList
    let root := (ofText text).root
    byteSize text ≤ maxOffset ∧ (∀ offset, StarAt text offset →
      (∃ leaf ∈ root.leaves, (leaf.kind = .blockComment ∨ leaf.kind = .mataContent) ∧
        leaf.start ≤ offset ∧ offset < leaf.stop) ∨
      ∃ leaf ∈ root.leaves, leaf.kind = .starComment ∧ leaf.start = offset ∧ lineStop? text offset = some leaf.stop ∧
        ∃ parent, leaf.parent? = some parent ∧ parent.kind = .comment) ∧
      ∀ leaf ∈ root.leaves, leaf.kind = .starComment → StarAt text leaf.start := by
  have hsize : byteSize "*a\n /* b\n * c */ * d\n\t* e\nprogram p\n * f\nend\nmata\n * g\nend\ngen x = 2 * 3".toList ≤
      maxOffset := by decide
  exact ⟨hsize, star_comments_start_lines _ hsize⟩

end Parse

end Dofile
