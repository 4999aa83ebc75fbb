import Dofile.Proofs.MataLine
import Dofile.Proofs.Reports
import Dofile.Proofs.StrayEnd

/-!
# Mata blocks of a parse

Each node of a mata block in a parse is what was read where its keyword stands. Its children are known from
that, and if it lacks its end it stands alone in a problem node and is found there once.
-/

namespace Dofile

open Reading (mataOpening endOfLine)

namespace Place

/-- The children of a node, blanks aside, are the row of its items. -/
theorem map_region_contents {q : Place} {kind : Kind} {l m : Lexer} {items : List Item}
    (h : q.region = (.node kind (Script.waiting (Item.scriptsAll items)), ⟨Item.startOf l items, m.offset⟩)) :
    q.contents.map region = Item.row l items := by
  obtain ⟨htree, hspan⟩ := Prod.mk.inj h
  have htree : q.tree = .node kind (Script.waiting (Item.scriptsAll items)) := htree
  have hstart : q.start = Item.startOf l items := congrArg Span.start hspan
  have hchildren : q.children.map region = rowFrom (Item.startOf l items) (Script.waiting (Item.scriptsAll items)) := by
    rw [children, htree, ← hstart]
    exact map_region_placesFrom ..
  rw [Item.row_eq, ← hchildren, List.filter_map]
  rfl

theorem map_fst_rowFrom (pos : Nat) (ts : List Tree) : (rowFrom pos ts).map Prod.fst = ts := by
  induction ts generalizing pos with
  | nil => rfl
  | cons t ts ih => rw [rowFrom, List.map_cons, ih]

theorem children_of_singleton {p : Place} {t : Tree} (h : p.tree.children = [t]) :
    ∃ c, p.children = [c] ∧ c.tree = t ∧ c.start = p.start := by
  rw [← map_tree_children_eq] at h
  obtain ⟨c, hchildren, htree⟩ := List.map_eq_singleton_iff.mp h
  obtain ⟨_, _, -, -, hstart, -⟩ := child_eq (p := p) (c := c) (i := 0) (by rw [hchildren]; rfl)
  exact ⟨c, hchildren, htree, hstart⟩

end Place

theorem Item.mem_trees_of_row {l : Lexer} {items : List Item} {r : Tree × Span} (h : r ∈ row l items) :
    r.1 ∈ trees items := by
  obtain ⟨hmem, hsolid⟩ := List.mem_filter.mp h
  have hforest : r.1 ∈ Script.forest (scriptsAll items) := by
    rw [← Place.map_fst_rowFrom l.offset (Script.forest (scriptsAll items))]
    exact List.mem_map_of_mem hmem
  refine (Script.mem_forest hforest).resolve_right ?_
  rintro ⟨blanks, hblank⟩
  rw [hblank] at hsolid
  cases hsolid

namespace Parse

/-- The blanks at the end of a text are a leaf of their own. -/
theorem exists_last_blank {text : List Char} {items : List Item} {l : Lexer}
    (h : (Reading.lines text.length).leads (.ofText text) items l) (hsize : byteSize text ≤ maxOffset)
    (hblank : l.leading ≠ []) :
    ∃ w ∈ (ofText text).root.leaves, w.tree = .leaf .whitespace l.leading ∧ w.start = l.offset := by
  obtain ⟨c, blanks, hleading⟩ := List.exists_cons_of_ne_nil hblank
  have hforest : Script.forest (Item.scriptsAll (fileItems items l)) =
      Script.forest (Item.scriptsAll items) ++ ([.leaf .whitespace l.leading] ++ [.leaf l.kind l.ahead.text]) := by
    have hlead : Script.blankLeaf l.leading = [.leaf .whitespace l.leading] := by rw [hleading]; rfl
    rw [fileItems, Item.scriptsAll_append, Script.forest_append, ← hlead]
    rfl
  have hoffset : l.offset = 0 + Tree.sizeAll (Script.forest (Item.scriptsAll items)) := by
    rw [Tree.sizeAll_eq_byteSize, Script.textAll_forest, (account_of_lines h).starts.2]
    rfl
  have hpart : (.leaf .whitespace l.leading, ⟨l.offset, l.offset + byteSize l.leading⟩) ∈ (ofText text).root.parts := by
    rw [root, Place.ofRoot, ofText_eq h hsize, Place.parts_node, hforest, Place.regionsFrom_append,
      Place.regionsFrom_append, ← hoffset, Place.regionsFrom_singleton, Place.parts_leaf]
    simp
  obtain ⟨w, hw, hregion⟩ := List.mem_map.mp hpart
  obtain ⟨htree, hspan⟩ := Prod.mk.inj hregion
  have htree : w.tree = .leaf .whitespace l.leading := htree
  exact ⟨w, Place.mem_leaves_iff.mpr ⟨hw, by rw [Place.isLeaf, htree]; rfl⟩, htree, congrArg Span.start hspan⟩

end Parse

def Parse.GivesUp (p : Parse) (q : Place) (message : String) (s : Span) : Prop :=
  (∃ e, q.parent? = some e ∧ e.kind = .error ∧ e.children = [q]) ∧
    (p.diagnostics.countP fun d => d.message == message && d.span == s) = 1

/-! ## Where a block was read -/

/-- How a mata block of a parse is read: on a line that begins where `b` stands, with its keyword ahead of `k` and
`o` behind its head. It goes up to `m`, and what is left of the line up to `e`. -/
structure Place.ReadsMata (text : List Char) (q : Place) (b k o : Lexer) (bs : List Item) (m : Lexer)
    (ts : List Item) (e : Lexer) : Prop where
  start : b.StartsLine text
  start_le : b.offset ≤ k.offset
  stands : k.Stands text
  word : k.ahead.text = "mata".toList
  block : MataCase k o bs m
  tail : endOfLine.leads m ts e
  region : q.region ∈ Item.regions k bs
  kind : q.kind = .mataBlock
  elements : ∀ r ∈ Item.regions k bs, ∃ p ∈ (Parse.ofText text).root.elements, p.region = r
  found : ∃ fs gs, (Parse.ofText text).findings = fs ++ (Item.findingsAll bs ++ Item.findingsAll ts) ++ gs ∧
    ∀ f ∈ fs ++ gs, f.span.stop ≤ b.offset ∨ e.kind ≠ .eof ∧ e.offset ≤ f.span.start
  last : e.kind = .eof → e.leading ≠ [] →
    ∃ w ∈ (Parse.ofText text).root.leaves, w.tree = .leaf .whitespace e.leading ∧ w.start = e.offset

theorem Parse.readsMata {text : List Char} (hsize : byteSize text ≤ maxOffset) {q : Place}
    (hq : q ∈ (ofText text).root.nodes) (hkind : q.kind = .mataBlock) :
    ∃ b k o bs m ts e, q.ReadsMata text b k o bs m ts e := by
  obtain ⟨items, l, h⟩ := Reading.exists_lines text
  have hready : (Lexer.ofText text).Ready text := ⟨Lexer.stands_ofText text, .inl (Lexer.startsLine_ofText text)⟩
  obtain ⟨hblocks, -⟩ := Reading.keepsBlocks_lines text text.length hready h
  have hregion : q.region ∈ Item.regions (.ofText text) items := by
    rw [Place.kind] at hkind
    rcases region_cases h hsize (Place.mem_nodes_iff.mp hq).1 (by rw [Place.kind, hkind]; decide) with ht | hr | ht
    · rw [ht, tree_of_lines h hsize] at hkind
      cases hkind
    · exact hr
    · rw [ht] at hkind
      cases hkind
  obtain ⟨b, _, e, honline, hlies⟩ := hblocks.blocks _ hregion hkind
  obtain ⟨cs, k, _, hcomments, ⟨bs, m, ts, ⟨hword, hblock⟩, htail, rfl⟩, rfl⟩ := honline.line
  have hcs : Account b cs k := (Reading.many (·.kind ≠ .blockComment) Reading.comment).account hcomments
  have hbs : Account k bs m := Reading.mataBlock.account hblock
  have hregions : Item.regions b (cs ++ (bs ++ ts)) =
      Item.regions b cs ++ (Item.regions k bs ++ Item.regions m ts) := by
    rw [Item.regions_append hcs, Item.regions_append hbs]
  have hmem : q.region ∈ Item.regions k bs := by
    have hmem := honline.region
    rw [hregions, List.mem_append, List.mem_append] at hmem
    rcases hmem with hmem | hmem | hmem
    · exact absurd hkind (Blocks.ne_mataBlock (Reading.lacks_comments hcomments) hmem)
    · exact hmem
    · exact absurd hkind (Blocks.ne_mataBlock (Reading.lacks_endOfLine htail) hmem)
  obtain ⟨o, hcase⟩ := Reading.mataCase hblock
  refine ⟨b, k, o, bs, m, ts, e, honline.start, hcs.offset_le, (hcs.stands honline.stands).1, isOneOf_singleton hword.2,
    hcase, htail, hmem, hkind, fun r hr => ?_, ?_, fun he hblank => ?_⟩
  · refine exists_of_region h hsize (hlies.regions ?_)
    rw [hregions]
    exact List.mem_append_right _ (List.mem_append_left _ hr)
  · obtain ⟨fs, gs, hfound, hothers⟩ := hlies.found
    have hsilent := Reading.findings_of_comments hcomments hword.1.ne_eof
    refine ⟨fs, gs, ?_, hothers⟩
    rw [ofText_eq h hsize, hfound, Item.findingsAll_append, Item.findingsAll_append, hsilent, List.nil_append]
  · obtain rfl := hlies.atEnd he
    exact exists_last_blank h hsize hblank

/-! ## What a block holds -/

structure HoldsMata (k : Lexer) (js : List Item) (m : Lexer) : Prop where
  account : Account k js m
  first : ∃ is, js = .token k .mataKeyword :: is
  stop_le : k.ahead.stop ≤ m.offset
  lacks : ∀ t ∈ Item.trees js, t.Lacks Kind.blocks

namespace HoldsMata

variable {k b m m' : Lexer} {is js : List Item}

theorem append (h : HoldsMata k is m) (haccount : Account m js m') (hlacks : ∀ t ∈ Item.trees js, t.Lacks Kind.blocks) :
    HoldsMata k (is ++ js) m' := by
  obtain ⟨rest, rfl⟩ := h.first
  refine ⟨h.account.append haccount, ⟨rest ++ js, rfl⟩, Nat.le_trans h.stop_le haccount.offset_le,
    Item.forall_trees_append h.lacks hlacks⟩

theorem of_opening (h : mataOpening.leads k is b) : HoldsMata k is b := by
  have hlacks := Reading.lacks_mataOpening Kind.isStatement_of_mem_blocks h
  refine ⟨mataOpening.account h, ?_, Reading.stop_le_of_mataOpening h, hlacks⟩
  obtain ⟨_, _, colon, ⟨-, rfl, -⟩, -, rfl⟩ := h
  exact ⟨colon, rfl⟩

theorem read {R : Reading} (h : HoldsMata k is b) (hlacks : R.Lacks Kind.blocks) (hR : R.leads b js m) :
    HoldsMata k (is ++ js) m := h.append (R.account hR) (hlacks hR)

theorem take (h : HoldsMata k is b) (hb : b.kind ≠ .eof) (mode : Mode) : HoldsMata k (is ++ [b.item]) (b.next mode) :=
  h.read (Reading.lacks_take Kind.isStatement_of_mem_blocks mode) ⟨hb, rfl, rfl⟩

end HoldsMata

/-- A mata block is a node of its own, or one that is given up. -/
theorem MataCase.holds {k o m : Lexer} {bs : List Item} (h : MataCase k o bs m) :
    (∃ js, bs = [.node .mataBlock js] ∧ HoldsMata k js m) ∨
      ∃ js problem, bs = [.enclosed .mataBlock (js ++ [.found ⟨problem, k.ahead.span⟩])] ∧ HoldsMata k js m := by
  have hkinds := Kind.isStatement_of_mem_blocks
  cases h with
  | @braces n is js opening brace content closer =>
    have hinside := (((HoldsMata.of_opening opening).take (by rw [brace]; decide) .mataBrace).read
      (Reading.lacks_eat hkinds _ _) content).take (by rw [closer]; decide) .statement
    exact .inl ⟨_, rfl, by simpa using hinside⟩
  | @openBraces n is js opening brace content closer =>
    have hinside := ((HoldsMata.of_opening opening).take (by rw [brace]; decide) .mataBrace).read
      (Reading.lacks_eat hkinds _ _) content
    exact .inr ⟨is ++ o.item :: js, _, rfl, by simpa using hinside.append (.relex n .statement) nofun⟩
  | @lines n m is js cs opening line content closer comments =>
    have hlines := (HoldsMata.of_opening opening).read ((Reading.lacks_take hkinds _).many _) content
    have hend : (Reading.word .endKeyword .statement).leads n [.token n .endKeyword] (n.next .statement) :=
      ⟨by rw [Lexer.IsWord, closer]; decide, rfl, rfl⟩
    have hinside := (hlines.read (Reading.lacks_word hkinds _ _) hend).read
      (Reading.lacks_trailingComments hkinds) comments
    exact .inl ⟨_, rfl, by simpa using hinside⟩
  | openLines opening line content closer =>
    exact .inr ⟨_, _, rfl, (HoldsMata.of_opening opening).read ((Reading.lacks_take hkinds _).many _) content⟩
  | inline opening brace line =>
    exact .inl ⟨_, rfl, (HoldsMata.of_opening opening).take (fun he => line (.inr he)) .statement⟩

theorem MataCase.stop_le {k o m : Lexer} {bs : List Item} (h : MataCase k o bs m) : k.ahead.stop ≤ m.offset := by
  obtain ⟨_, -, hinside⟩ | ⟨_, _, -, hinside⟩ := h.holds <;> exact hinside.stop_le

namespace Place.ReadsMata

variable {text : List Char} {q : Place} {b k o m e : Lexer} {bs js ts : List Item} {problem : Problem}

theorem mem_cases (h : q.ReadsMata text b k o bs m ts e) (hinside : HoldsMata k js m) (rs : List (Tree × Span))
    (hregions : Item.regions k bs = rs ++ Item.regions k js) : q.region ∈ rs := by
  have hmem := h.region
  rw [hregions, List.mem_append] at hmem
  exact hmem.resolve_right fun hmem => Blocks.ne_mataBlock hinside.lacks hmem h.kind

theorem region_of_node (h : q.ReadsMata text b k o [.node .mataBlock js] m ts e) : HoldsMata k js m ∧
    q.region = (.node .mataBlock (Script.waiting (Item.scriptsAll js)), ⟨Item.startOf k js, m.offset⟩) := by
  obtain ⟨_, heq, hinside⟩ | ⟨_, _, heq, -⟩ := h.block.holds
  · obtain rfl : js = _ := by simpa using heq
    have hsolid : Kind.mataBlock ≠ .whitespace := by decide
    have hregions := Item.regions_node hinside.account hsolid
    exact ⟨hinside, List.mem_singleton.mp (h.mem_cases hinside [_] hregions)⟩
  · simp at heq

theorem region_of_givenUp
    (h : q.ReadsMata text b k o [.enclosed .mataBlock (js ++ [.found ⟨problem, k.ahead.span⟩])] m ts e) :
    HoldsMata k js m ∧
      q.region = (.node .mataBlock (Script.waiting (Item.scriptsAll js)), ⟨Item.startOf k js, m.offset⟩) := by
  obtain ⟨_, heq, -⟩ | ⟨js', problem', heq, hinside⟩ := h.block.holds
  · simp at heq
  · obtain ⟨rfl, -⟩ : js = js' ∧ problem = problem' := by simpa [List.append_inj_left'] using heq
    have hsolid : Kind.mataBlock ≠ .whitespace := by decide
    have hregions := Item.regions_givenUp hinside.account hsolid ⟨problem, k.ahead.span⟩
    have hmem := h.mem_cases hinside [_, _] hregions
    refine ⟨hinside, (List.mem_pair.mp hmem).resolve_left fun herror => ?_⟩
    have hkind := h.kind
    rw [Place.kind, show q.tree = _ from congrArg Prod.fst herror] at hkind
    cases hkind

theorem startOf_eq (hinside : HoldsMata k js m) : Item.startOf k js = k.ahead.start := by
  obtain ⟨is, rfl⟩ := hinside.first
  rfl

theorem start_eq (h : q.ReadsMata text b k o bs m ts e) : q.start = k.ahead.start := by
  obtain ⟨js, rfl, -⟩ | ⟨js, problem, rfl, -⟩ := h.block.holds
  · obtain ⟨hinside, hregion⟩ := h.region_of_node
    exact startOf_eq hinside ▸ congrArg (fun r => r.2.start) hregion
  · obtain ⟨hinside, hregion⟩ := h.region_of_givenUp
    exact startOf_eq hinside ▸ congrArg (fun r => r.2.start) hregion

theorem of_node (h : q.ReadsMata text b k o [.node .mataBlock js] m ts e) :
    q.stop = m.offset ∧ q.contents.map Place.region = Item.row k js :=
  ⟨congrArg (fun r => r.2.stop) h.region_of_node.2, map_region_contents h.region_of_node.2⟩

theorem span_keyword (h : q.ReadsMata text b k o bs m ts e) : k.ahead.span = ⟨q.start, q.start + 4⟩ := by
  rw [Token.span, Token.stop, h.word, h.start_eq]
  rfl

/-- A block without its end stands alone in a problem node. -/
theorem of_givenUp (h : q.ReadsMata text b k o [.enclosed .mataBlock (js ++ [.found ⟨problem, k.ahead.span⟩])] m ts e)
    (hsize : byteSize text ≤ maxOffset) (hq : q ∈ (Parse.ofText text).root.elements) :
    (q.stop = m.offset ∧ q.contents.map Place.region = Item.row k js) ∧
      ∃ p, q.parent? = some p ∧ p.kind = .error ∧ p.children = [q] := by
  obtain ⟨hinside, hregion⟩ := h.region_of_givenUp
  refine ⟨⟨congrArg (fun r => r.2.stop) hregion, map_region_contents hregion⟩, ?_⟩
  have hsolid : Kind.mataBlock ≠ .whitespace := by decide
  have hregions := Item.regions_givenUp hinside.account hsolid ⟨problem, k.ahead.span⟩
  obtain ⟨p, hp, hpregion⟩ := h.elements _ (by rw [hregions]; exact List.mem_cons_self)
  obtain ⟨hptree, hpspan⟩ := Prod.mk.inj hpregion
  have hptree : p.tree = .node .error [.node .mataBlock (Script.waiting (Item.scriptsAll js))] := hptree
  obtain ⟨c, hc, hctree, hcstart⟩ := children_of_singleton (p := p) (by rw [hptree]; rfl)
  have hchild : p.children[0]? = some c := by rw [hc]; rfl
  -- the node in the problem node begins with the same keyword, so it is the block
  obtain ⟨is, hfirst⟩ := hinside.first
  have hleaf : ∀ {c : Place}, c.tree = .node .mataBlock (Script.waiting (Item.scriptsAll js)) →
      ∃ kind word us, c.tree.children = .leaf kind word :: us := fun hc =>
    ⟨.mataKeyword, k.ahead.text, Script.forest (Item.scriptsAll is), by rw [hc, hfirst]; rfl⟩
  have hstart : p.start = q.start := congrArg Span.start (hpspan.trans (congrArg Prod.snd hregion).symm)
  obtain rfl : c = q := Place.eq_of_first (Parse.inOrder_leaves text hsize)
    (Place.mem_elements_trans hp (Place.mem_elements_of_child (List.mem_of_getElem? hchild))) hq
    (hleaf hctree) (hleaf (congrArg Prod.fst hregion)) (hcstart.trans hstart)
  exact ⟨p, (Place.parent_of_child hchild).1, by rw [Place.kind, hptree]; rfl, hc⟩

/-- What is found in a block at its keyword is said once. -/
theorem countP_found (h : q.ReadsMata text b k o bs m ts e) (hfound : Item.findingsAll bs = [⟨problem, k.ahead.span⟩]) :
    ((Parse.ofText text).diagnostics.countP fun d => d.message == problem.message && d.span == k.ahead.span) = 1 := by
  obtain ⟨fs, gs, hsplit, hothers⟩ := h.found
  have hword : k.ahead.start < k.ahead.stop := by
    have hsize : byteSize k.ahead.text = 4 := by rw [h.word]; rfl
    rw [Token.stop, hsize]
    omega
  have hstop : k.ahead.stop ≤ m.offset := h.block.stop_le
  have hle : m.offset ≤ e.offset := (Reading.account _ h.tail).offset_le
  have hstart : b.offset ≤ k.ahead.start := Nat.le_trans h.start_le (Nat.le_add_right ..)
  -- all else lies before the line, behind the block, or behind the line
  have hne : ∀ f ∈ fs ++ Item.findingsAll ts ++ gs, f.span ≠ k.ahead.span := by
    intro f hf hspan
    have hsplit : f ∈ fs ++ gs ∨ f ∈ Item.findingsAll ts := by
      simp only [List.mem_append] at hf ⊢
      tauto
    have hbounds : f.span.start = k.ahead.start ∧ f.span.stop = k.ahead.stop := by rw [hspan]; exact ⟨rfl, rfl⟩
    rcases hsplit with hf | hf
    · rcases hothers f hf with hf | ⟨-, hf⟩ <;> omega
    · have hf := ((Bounded.endOfLine h.tail).found f hf).1
      omega
  have hnone : ∀ hs : List Finding, (∀ f ∈ hs, f ∈ fs ++ Item.findingsAll ts ++ gs) →
      hs.countP (fun f => f.diagnostic.message == problem.message && f.diagnostic.span == k.ahead.span) = 0 := by
    intro hs hsub
    refine List.countP_eq_zero.mpr fun f hf => ?_
    have hspan : f.diagnostic.span ≠ k.ahead.span := hne f (hsub f hf)
    simp [hspan]
  rw [Parse.diagnostics, List.countP_map, hsplit, hfound]
  simp only [List.countP_append, Function.comp_def]
  rw [hnone fs (by simp +contextual), hnone (Item.findingsAll ts) (by simp +contextual),
    hnone gs (by simp +contextual)]
  simp [Finding.diagnostic]

theorem givesUp (h : q.ReadsMata text b k o [.enclosed .mataBlock (js ++ [.found ⟨problem, k.ahead.span⟩])] m ts e)
    (hsize : byteSize text ≤ maxOffset) (hq : q ∈ (Parse.ofText text).root.elements)
    (hsilent : Item.findingsAll js = []) : (Parse.ofText text).GivesUp q problem.message ⟨q.start, q.start + 4⟩ := by
  refine ⟨(h.of_givenUp hsize hq).2, ?_⟩
  rw [← h.span_keyword]
  exact h.countP_found (by rw [Item.findingsAll_givenUp, hsilent]; rfl)

end Place.ReadsMata

end Dofile
