import Dofile.Proofs.Programs

/-!
# Programs of a parse

In the tree of a text each program has its `end`, or the rest of the text is its own and the
missing `end` is found once. A program that holds an unfinished one is unfinished too, for an
`end` of its own would come behind the rest of the text.
-/

namespace Dofile

theorem Account.bounds_taken {l m : Lexer} {items : List Item} (h : Account l items m) :
    ∀ t ∈ Item.takenAll items, t.1.ahead.start < t.1.ahead.stop ∧ t.1.ahead.stop ≤ m.offset := by
  have hnext : ∀ {l : Lexer} {kind : Kind} (mode : Mode), l.kind ≠ .eof → ∀ t ∈ Item.takenAll [.token l kind],
      t.1.ahead.start < t.1.ahead.stop ∧ t.1.ahead.stop ≤ (l.next mode).offset := by
    intro l kind mode he t ht
    rw [List.mem_singleton.mp ht]
    exact ⟨Lexer.start_lt_stop he, Nat.le_refl _⟩
  induction h with
  | skip | relex | found => simp [Item.takenAll, Item.taken]
  | take h mode => exact hnext mode h
  | word h _ mode => exact hnext mode h.ne_eof
  | node _ _ ih => simpa [Item.takenAll, Item.taken] using ih
  | enclosed _ _ ih => simpa [Item.takenAll, Item.taken] using ih
  | append _ h' ih ih' =>
    intro t ht
    rw [Item.takenAll_append, List.mem_append] at ht
    rcases ht with ht | ht
    · exact ⟨(ih t ht).1, Nat.le_trans (ih t ht).2 h'.offset_le⟩
    · exact ih' t ht

namespace Tree

theorem kind_of_isOpenProgram {t : Tree} (h : t.isOpenProgram = true) : t.kind = .programDefinition := by
  by_contra hkind
  rw [not_openProgram_of_kind hkind] at h
  cases h

theorem isLeaf_of_isOpenProgram {t : Tree} (h : t.isOpenProgram = true) : t.isLeaf = false := by
  cases t with
  | leaf => cases h
  | node => rfl

theorem ends_of_isOpenProgram {t c : Tree} (h : t.isOpenProgram = true) (hc : c ∈ t.children) :
    c.kind ≠ .endKeyword := by
  unfold isOpenProgram at h
  split at h
  · exact bne_iff_ne.mp (List.all_eq_true.mp h c hc)
  · cases h

/-- No program lies within what stands behind the `end` of one. -/
theorem IsTrailing.ne_program {p q : Place} (h : p.tree.IsTrailing) (hshaped : p.tree.IsShaped)
    (hq : q ∈ p.elements) : q.kind ≠ .programDefinition := by
  have hleaf : ∀ {p : Place}, p.isLeaf = true → p.kind ≠ .programDefinition → q ∈ p.elements →
      q.kind ≠ .programDefinition := by
    intro p hisleaf hkind hq
    rw [Place.elements_leaf hisleaf, List.mem_singleton] at hq
    rwa [hq]
  rcases h with hspace | ⟨hisleaf, hcomment⟩ | ⟨text, htree⟩
  · refine hleaf ?_ (by rw [Place.kind, hspace]; decide) hq
    rw [Typed.isLeaf_eq hshaped, Place.kind, hspace]
    rfl
  · refine hleaf hisleaf (fun hkind => ?_) hq
    rw [show p.tree.kind = _ from hkind] at hcomment
    cases hcomment
  · rcases Place.mem_elements_iff.mp hq with rfl | ⟨c, hc, hqc⟩
    · rw [Place.kind, htree]
      exact fun he => by cases he
    · have hmem : c.tree ∈ p.tree.children := Place.tree_mem_children hc
      rw [htree] at hmem
      have hchild : c.tree = .leaf .blockComment text := List.mem_singleton.mp hmem
      exact hleaf (by rw [Place.isLeaf, hchild]; rfl) (by rw [Place.kind, hchild]; exact fun he => by cases he) hqc

end Tree

theorem Place.children_of_endsOnce {q : Place} (h : q.tree.EndsOnce) :
    ∃ before e after, q.children = before ++ e :: after ∧ e.isLeaf = true ∧ e.kind = .endKeyword ∧
      ∀ c ∈ after, c.tree.IsTrailing := by
  obtain ⟨_, word, _, hchildren, -, hafter⟩ := h
  rw [← map_tree_children_eq] at hchildren
  obtain ⟨before, rest, hplaces, rfl, hrest⟩ := List.map_eq_append_iff.mp hchildren
  obtain ⟨e, after, rfl, hend, rfl⟩ := List.map_eq_cons_iff.mp hrest
  exact ⟨before, e, after, hplaces, by rw [isLeaf, hend]; rfl, by rw [kind, hend]; rfl, fun c hc =>
    hafter c.tree (List.mem_map_of_mem hc)⟩

namespace Parse

def missingEnds (p : Parse) : List Diagnostic := p.diagnostics.filter (·.message == "missing `end` for program")

/-- A program without its `end`, alone in a problem node. What is missing is found once, at the keyword,
and nothing but blanks follows. -/
structure Unfinished (p : Parse) (q : Place) : Prop where
  noEnd : ∀ c ∈ q.children, c.kind ≠ .endKeyword
  alone : ∃ e, q.parent? = some e ∧ e.kind = .error ∧ e.children = [q]
  found : ∃ keyword, q.children.head? = some keyword ∧ keyword.kind = .programKeyword ∧ keyword.isLeaf = true ∧
    p.missingEnds.countP (·.span == keyword.span) = 1
  last : ∀ leaf ∈ p.root.leaves, q.stop ≤ leaf.start → leaf.kind = .whitespace ∨ leaf.kind = .eof

section
variable {text : List Char} {items : List Item} {l : Lexer} {opens : List Span}
  (h : (Reading.lines text.length).leads (.ofText text) items l) (hsize : byteSize text ≤ maxOffset)
  (hprograms : Programs opens (.ofText text) items l)
include h hsize

theorem leaf_cases {leaf : Place} (hleaf : leaf ∈ (ofText text).root.leaves) :
    leaf.kind = .whitespace ∨ leaf.kind = .eof ∨ leaf.start < leaf.stop ∧ leaf.stop ≤ l.offset := by
  by_cases hspace : leaf.kind = .whitespace
  · exact .inl hspace
  obtain ⟨hmem, hisleaf⟩ := Place.mem_leaves_iff.mp hleaf
  rcases region_cases h hsize hmem hspace with hroot | hitem | heof
  · rw [Place.isLeaf, hroot, tree_of_lines h hsize] at hisleaf
    cases hisleaf
  · have htaken : leaf.region ∈ (Item.regions (.ofText text) items).filter (·.1.isLeaf) :=
      List.mem_filter.mpr ⟨hitem, hisleaf⟩
    rw [Item.leaves_regions (account_of_lines h)] at htaken
    obtain ⟨t, ht, htree⟩ := List.mem_map.mp htaken
    have hspan : t.1.ahead.span = leaf.span := congrArg Prod.snd htree
    have hbounds := (account_of_lines h).bounds_taken t ht
    have hstart : t.1.ahead.start = leaf.start := congrArg Span.start hspan
    have hstop : t.1.ahead.stop = leaf.stop := congrArg Span.stop hspan
    exact .inr (.inr ⟨hstart ▸ hstop ▸ hbounds.1, hstop ▸ hbounds.2⟩)
  · exact .inr (.inl (congrArg Tree.kind heof))

theorem region_of_open {q : Place} (hq : q ∈ (ofText text).root.elements) (hopen : q.tree.isOpenProgram = true) :
    q.region ∈ Item.regions (.ofText text) items := by
  have hkind : q.kind = .programDefinition := Tree.kind_of_isOpenProgram hopen
  rcases region_cases h hsize hq (by rw [hkind]; decide) with hroot | hitem | heof
  · rw [Place.kind, hroot, tree_of_lines h hsize] at hkind
    cases hkind
  · exact hitem
  · rw [heof] at hopen
    cases hopen

include hprograms

theorem keepsPrograms_root : (ofText text).root.tree.All Tree.KeepsPrograms := by
  have hkept : ∀ t ∈ (ofText text).root.tree.children, t.isOpenProgram = false ∧ t.All Tree.KeepsPrograms := by
    intro t ht
    rcases child_cases h hsize ht with ht | ⟨kind, word, rfl⟩
    · exact hprograms.kept t ht
    · exact ⟨rfl, Tree.keepsPrograms_leaf _ _⟩
  rw [tree_of_lines h hsize] at hkept ⊢
  refine ⟨⟨fun _ hk => (by cases hk), fun c hc hopen => ?_⟩, (Tree.allOf_iff _).mpr fun t ht => (hkept t ht).2⟩
  rw [(hkept c hc).1] at hopen
  cases hopen

theorem span_of_open {q : Place} (hq : q ∈ (ofText text).root.elements) (hopen : q.tree.isOpenProgram = true) :
    headSpan q.region ∈ opens := by
  rw [← hprograms.nodes]
  exact List.mem_map_of_mem (List.mem_filter.mpr ⟨region_of_open h hsize hq hopen, hopen⟩)

theorem spans_missingEnds : (ofText text).missingEnds.map Diagnostic.span = opens.reverse :=
  (spans_of_problem h hsize .missingProgramEnd).trans hprograms.found

theorem stop_of_open {q : Place} (hq : q ∈ (ofText text).root.elements) (hopen : q.tree.isOpenProgram = true) :
    q.stop = l.offset := hprograms.reach q.region (region_of_open h hsize hq hopen) hopen

theorem isOpen_of_contains {q o : Place} (hq : q ∈ (ofText text).root.elements) (hopen : q.tree.isOpenProgram = true)
    (ho : o ∈ (ofText text).root.nodes) (hkind : o.kind = .programDefinition) (hqo : q ∈ o.elements) :
    o.tree.isOpenProgram = true := by
  have helement := (Place.mem_nodes_iff.mp ho).1
  have hshaped := shaped hsize
  have hprogram := (Place.all_elements (keepsPrograms_root h hsize hprograms) o helement).self.program
    (Place.mem_nodes_iff.mp ho).2 hkind
  by_contra hnot
  obtain ⟨before, e, after, hchildren, hleaf, hend, hafter⟩ := Place.children_of_endsOnce (hprogram.2.resolve_left hnot)
  have hchild : ∀ {c : Place}, c ∈ o.children → c ∈ (ofText text).root.elements := fun hc =>
    Place.mem_elements_trans helement (Place.mem_elements_of_child hc)
  have hne : q ≠ o := fun he => hnot (he ▸ hopen)
  obtain ⟨c, hc, hqc⟩ := (Place.mem_elements_iff.mp hqo).resolve_left hne
  have hq' := Tree.kind_of_isOpenProgram hopen
  -- the `end` of the program would stand behind the end of the text, or before the inner program
  rw [hchildren, List.mem_append, List.mem_cons] at hc
  rcases hc with hc | rfl | hc
  · have hpairs := Place.pairwise_children (Place.mem_nodes_iff.mp ho).2
    rw [hchildren, List.pairwise_append] at hpairs
    have hbehind := hpairs.2.2 c hc e List.mem_cons_self
    have hinner := (Place.bounds_of_mem_elements hqc).2
    have hstop := stop_of_open h hsize hprograms hq hopen
    rcases leaf_cases h hsize (Place.mem_leaves_iff.mpr ⟨hchild (by simp [hchildren]), hleaf⟩) with he | he | he
    · rw [hend] at he
      cases he
    · rw [hend] at he
      cases he
    · omega
  · rw [Place.elements_leaf hleaf, List.mem_singleton] at hqc
    rw [← hqc, show q.kind = _ from hq'] at hend
    cases hend
  · have hin : c ∈ o.children := by simp [hchildren, hc]
    exact (hafter c hc).ne_program (hshaped c (hchild hin)).self hqc hq'

theorem keyword_of_open {q : Place} (hq : q ∈ (ofText text).root.elements) (hopen : q.tree.isOpenProgram = true) :
    ∃ keyword, q.children.head? = some keyword ∧ keyword.kind = .programKeyword ∧ keyword.isLeaf = true ∧
      keyword.span = headSpan q.region := by
  have hprogram := (Place.all_elements (keepsPrograms_root h hsize hprograms) q hq).self.program
    (Tree.isLeaf_of_isOpenProgram hopen) (Tree.kind_of_isOpenProgram hopen)
  obtain ⟨⟨text, ts, hchildren⟩, -⟩ := hprogram
  obtain ⟨keyword, hhead, htree, hspan⟩ := Place.head_of_children hchildren
  exact ⟨keyword, by rwa [List.head?_eq_getElem?], by rw [Place.kind, htree]; rfl, by rw [Place.isLeaf, htree]; rfl,
    hspan⟩

theorem count_of_open {s : Span} (hs : s ∈ opens) : (ofText text).missingEnds.countP (·.span == s) = 1 := by
  have hcount : (ofText text).missingEnds.countP (·.span == s) = opens.reverse.count s := by
    rw [← spans_missingEnds h hsize hprograms, List.count, List.countP_map]
    rfl
  have hnodup : opens.Nodup := hprograms.sorted.imp fun hlt he => by
    rw [he] at hlt
    exact Nat.lt_irrefl _ hlt
  rw [hcount]
  exact List.count_eq_one_of_mem (List.nodup_reverse.mpr hnodup) (List.mem_reverse.mpr hs)

theorem unfinished_of_open {q : Place} (hq : q ∈ (ofText text).root.elements) (hopen : q.tree.isOpenProgram = true) :
    (ofText text).Unfinished q where
  noEnd c hc := Tree.ends_of_isOpenProgram hopen (Place.tree_mem_children hc)
  alone := by
    rcases Place.eq_or_child hq with rfl | ⟨e, he, i, hi⟩
    · have hkind := Tree.kind_of_isOpenProgram hopen
      rw [tree_of_lines h hsize] at hkind
      cases hkind
    · have hchild := List.mem_of_getElem? hi
      have hkept := Place.all_elements (keepsPrograms_root h hsize hprograms) e (Place.mem_nodes_iff.mp he).1
      have htree := hkept.self.alone q.tree (Place.tree_mem_children hchild) hopen
      exact ⟨e, (Place.parent_of_child hi).1, by rw [Place.kind, htree]; rfl,
        Place.children_eq_singleton hchild (by rw [htree]; rfl)⟩
  found := by
    obtain ⟨keyword, hhead, hkind, hleaf, hspan⟩ := keyword_of_open h hsize hprograms hq hopen
    exact ⟨keyword, hhead, hkind, hleaf,
      count_of_open h hsize hprograms (hspan ▸ span_of_open h hsize hprograms hq hopen)⟩
  last leaf hleaf hbehind := by
    have hstop := stop_of_open h hsize hprograms hq hopen
    rcases leaf_cases h hsize hleaf with he | he | he
    · exact .inl he
    · exact .inr he
    · omega

theorem exists_of_missingEnd {d : Diagnostic} (hd : d ∈ (ofText text).missingEnds) :
    ∃ q ∈ (ofText text).root.elements, q.tree.isOpenProgram = true ∧ headSpan q.region = d.span := by
  have hspan : d.span ∈ opens := by
    rw [← List.mem_reverse, ← spans_missingEnds h hsize hprograms]
    exact List.mem_map_of_mem hd
  rw [← hprograms.nodes] at hspan
  obtain ⟨r, hr, hhead⟩ := List.mem_map.mp hspan
  obtain ⟨hr, hopen⟩ := List.mem_filter.mp hr
  obtain ⟨q, hq, rfl⟩ := exists_of_region h hsize hr
  exact ⟨q, hq, hopen, hhead⟩

end

/-- Every program of a text has its `end`, with nothing but blanks and comments behind it, or it is unfinished
together with all programs around it. Nothing else is said of programs that lack their ends. -/
theorem programs_end_or_reach (text : List Char) (hsize : byteSize text ≤ maxOffset) :
    let p := ofText text
    (∀ q ∈ p.root.nodes, q.kind = .programDefinition →
      q.tree.EndsOnce ∨ p.Unfinished q ∧
        ∀ o ∈ p.root.nodes, o.kind = .programDefinition → q ∈ o.elements → p.Unfinished o) ∧
      ∀ d ∈ p.missingEnds, ∃ q ∈ p.root.nodes, q.kind = .programDefinition ∧ p.Unfinished q ∧
        ∃ keyword, q.children.head? = some keyword ∧ d.span = keyword.span := by
  obtain ⟨items, l, h⟩ := Reading.exists_lines text
  obtain ⟨opens, hprograms⟩ := Reading.keepsPrograms_lines text.length h
  intro p
  refine ⟨fun q hq hkind => ?_, fun d hd => ?_⟩
  · obtain ⟨helement, hnode⟩ := Place.mem_nodes_iff.mp hq
    have hprogram := (Place.all_elements (keepsPrograms_root h hsize hprograms) q helement).self.program hnode hkind
    refine hprogram.2.symm.imp_right fun hopen => ⟨unfinished_of_open h hsize hprograms helement hopen, ?_⟩
    intro o ho hkind hqo
    have hopen := isOpen_of_contains h hsize hprograms helement hopen ho hkind hqo
    exact unfinished_of_open h hsize hprograms (Place.mem_nodes_iff.mp ho).1 hopen
  · obtain ⟨q, hq, hopen, hspan⟩ := exists_of_missingEnd h hsize hprograms hd
    obtain ⟨keyword, hhead, -, -, hkeyword⟩ := keyword_of_open h hsize hprograms hq hopen
    exact ⟨q, Place.mem_nodes_iff.mpr ⟨hq, Tree.isLeaf_of_isOpenProgram hopen⟩, Tree.kind_of_isOpenProgram hopen,
      unfinished_of_open h hsize hprograms hq hopen, keyword,
      hhead, by rw [hkeyword, hspan]⟩

theorem programs_end_or_reach_nested :
    let text := "program a\nprogram b\nend // b\nmata\nend\nprogram c\n".toList
    let p := ofText text
    byteSize text ≤ maxOffset ∧
      (∀ q ∈ p.root.nodes, q.kind = .programDefinition →
        q.tree.EndsOnce ∨ p.Unfinished q ∧
          ∀ o ∈ p.root.nodes, o.kind = .programDefinition → q ∈ o.elements → p.Unfinished o) ∧
      ∀ d ∈ p.missingEnds, ∃ q ∈ p.root.nodes, q.kind = .programDefinition ∧ p.Unfinished q ∧
        ∃ keyword, q.children.head? = some keyword ∧ d.span = keyword.span := by
  have hsize : byteSize "program a\nprogram b\nend // b\nmata\nend\nprogram c\n".toList ≤ maxOffset := by decide
  exact ⟨hsize, programs_end_or_reach _ hsize⟩

end Parse

end Dofile
