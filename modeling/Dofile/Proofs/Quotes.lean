import Dofile.Proofs.Ends
import Dofile.Proofs.Reports

/-!
# Delimiters of strings and macro references

The delimiters of strings and macro references stand in these nodes only, each as a child of its own node. Where
nothing is found in a text every such node is closed, so its two delimiters are the two ends of its pair, and no
other pair ends there.
-/

namespace Dofile

/-! ## Where delimiters stand -/

def Kind.constructOpeners : List Kind := [.doubleQuote, .compoundOpen, .backtick]

def Tree.KeepsOpeners (t : Tree) : Prop :=
  t.kind.isDelimited = false → ∀ u ∈ t.children, u.kind ∉ Kind.constructOpeners

theorem Kind.not_opener_of_isNode {k : Kind} (h : k.isNode = true) : k ∉ constructOpeners := by
  intro hk
  have hleaf := (show ∀ k ∈ constructOpeners, k.isNode = false by decide) k hk
  rw [h] at hleaf
  cases hleaf

namespace Item

def KeepOpeners (outer : Setting) (items : List Item) : Prop :=
  ∀ t ∈ trees items, t.All Tree.KeepsOpeners ∧ (outer = .line → t.kind ∉ Kind.constructOpeners)

variable {outer : Setting} {is js : List Item} {kind : Kind}

theorem KeepOpeners.append (h : KeepOpeners outer is) (h' : KeepOpeners outer js) : KeepOpeners outer (is ++ js) :=
  forall_trees_append h h'

theorem keepOpeners_token {l : Lexer} (h : outer = .line → kind ∉ Kind.constructOpeners) :
    KeepOpeners outer [.token l kind] :=
  List.forall_mem_singleton.mpr ⟨fun _ _ hu => (List.not_mem_nil hu).elim, h⟩

/-- Within a delimited node openers may stand. -/
theorem KeepOpeners.over (h : KeepOpeners outer is) (hk : kind.isDelimited = true ∨ outer = .line) {ts : List Tree}
    (hspaced : Spaced is ts) : (Tree.node kind ts).All Tree.KeepsOpeners := by
  refine Tree.all_node (fun hplain => ?_) (hspaced.forall (fun u hu => (h u hu).1) nofun)
  have hline : outer = .line := by
    refine hk.resolve_left fun hd => ?_
    rw [show kind.isDelimited = false from hplain] at hd
    cases hd
  exact hspaced.forall (fun u hu => (h u hu).2 hline) fun _ => (by decide : Kind.whitespace ∉ Kind.constructOpeners)

theorem KeepOpeners.node {inner : Setting} (h : KeepOpeners inner is)
    (hk : kind.isDelimited = true ∨ inner = .line) (hn : kind.isNode = true) : KeepOpeners outer [.node kind is] :=
  List.forall_mem_singleton.mpr ⟨h.over hk (spaced_waiting is), fun _ => Kind.not_opener_of_isNode hn⟩

/-- A problem node in a line. What is found there has no tree. -/
theorem KeepOpeners.problem (h : KeepOpeners .line is) (f : Finding) : KeepOpeners outer [.node .error (.found f :: is)] := by
  have hitems : KeepOpeners .line (.found f :: is) := h
  exact hitems.node (.inr rfl) rfl

theorem KeepOpeners.givenUp {inner : Setting} (h : KeepOpeners inner is)
    (hk : kind.isDelimited = true ∨ inner = .line) (hn : kind.isNode = true) (f : Finding) :
    KeepOpeners outer [.enclosed kind (is ++ [.found f])] := by
  rw [KeepOpeners, trees_givenUp]
  refine List.forall_mem_singleton.mpr ⟨Tree.all_node (fun _ => ?_) ?_, fun _ => Kind.not_opener_of_isNode rfl⟩
  · exact List.forall_mem_singleton.mpr (Kind.not_opener_of_isNode hn)
  · exact List.forall_mem_singleton.mpr (h.over hk (spaced_waiting is))

end Item

namespace Derivation

open Item (KeepOpeners keepOpeners_token)

theorem keepOpeners_bracedName {outer : Setting} {l m : Lexer} {is : List Item}
    (h : Reading.bracedName.leads l is m) : KeepOpeners outer is := by
  rcases h with ⟨hname, -, rfl, -⟩ | ⟨-, ⟨-, rfl, -⟩ | ⟨-, rfl, -⟩⟩
  · exact keepOpeners_token fun _ => by rw [show l.kind = .ident from hname]; decide
  · exact fun _ ht => (List.not_mem_nil ht).elim
  · exact fun _ ht => (List.not_mem_nil ht).elim

theorem keepOpeners {outer : Setting} {l l' : Lexer} {items : List Item} (h : Derivation outer l items l') :
    KeepOpeners outer items := by
  have hnone : ∀ (outer : Setting), KeepOpeners outer [] := fun _ _ ht => (List.not_mem_nil ht).elim
  have htoken : ∀ {outer : Setting} {l : Lexer} {kind : Kind}, l.kind = kind → kind ∉ Kind.constructOpeners →
      KeepOpeners outer [l.item] := fun hl hk => keepOpeners_token fun _ => hl ▸ hk
  have hinner : ∀ (q : Construct) (l : Lexer), KeepOpeners (.within q) [l.item] :=
    fun q l => keepOpeners_token fun h => by cases h
  have hbraces : ∀ {l b c m : Lexer} {is : List Item}, l.kind = .dollar → b.kind = .leftBrace →
      Reading.bracedName.leads c is m → KeepOpeners .line (l.item :: b.item :: is) :=
    fun hl hb hname => (htoken hl (by decide)).append ((htoken hb (by decide)).append (keepOpeners_bracedName hname))
  induction h with
  | nil outer => exact hnone outer
  | missingName => exact hnone .line
  | append _ _ ih ih' => exact ih.append ih'
  | @token outer l h =>
    refine keepOpeners_token fun houter => ?_
    subst houter
    exact fun hk => h.1 ((show ∀ k ∈ Kind.constructOpeners, k ∈ Kind.lineOpeners by decide) _ hk)
  | word _ hk => exact keepOpeners_token fun _ => (show ∀ k ∈ Kind.wordLabels, k ∉ Kind.constructOpeners by decide) _ hk
  | node hk _ _ _ ih => exact ih.node (.inr rfl) (Kind.isNode_of_mem_lineNodes hk)
  | problem _ _ _ ih => exact ih.problem _
  | unknown h => exact (htoken h (by decide)).problem _
  | openComment h => exact (htoken h.1 (by decide)).problem _
  | openBlock hk _ _ _ _ ih => exact ih.givenUp (.inr rfl) (Kind.isNode_of_mem_openBlocks hk) _
  | @plainMacro _ l m hl _ hname =>
    have htokens : KeepOpeners .line [l.item, m.item] := (htoken hl (by decide)).append (htoken hname (by decide))
    exact htokens.node (.inl rfl) rfl
  | bracedMacro hl _ hbrace hname hm =>
    exact ((hbraces hl hbrace hname).append (htoken hm (by decide))).node (.inl rfl) rfl
  | openMacro hl _ hbrace hname => exact (hbraces hl hbrace hname).givenUp (.inl rfl) rfl _
  | @closed _ q l m _ _ _ _ _ ih =>
    exact (((hinner q l).append ih).append (hinner q m)).node (.inl q.isDelimited_kind) q.isNode_kind
  | @unclosed _ q l _ _ _ _ _ _ ih =>
    exact ((hinner q l).append ih).givenUp (.inl q.isDelimited_kind) q.isNode_kind _

end Derivation

def Mode.plain : List Mode := [.statement, .mataHead, .mataLine, .mataBrace]

theorem mataMode_mem_plain (before : List Kind) : mataMode before ∈ Mode.plain := by
  unfold mataMode
  repeat' split
  all_goals decide

theorem Place.contextMode_of_child {n c : Place} {i : Nat} (hi : n.children[i]? = some c)
    (hn : n.kind.isDelimited = false) : c.contextMode ∈ Mode.plain := by
  obtain ⟨kind, ts, htree, -, -, habove⟩ := child_eq hi
  have hkind : n.kind = kind := congrArg Tree.kind htree
  rw [hkind] at hn
  unfold contextMode
  rw [habove]
  simp only
  split
  · decide
  · unfold modeWithin
    split
    iterate 4 cases hn
    · exact mataMode_mem_plain _
    · contradiction
    · decide

theorem Lexer.mode_of_at {text : List Char} {offset : Nat} {mode : Mode} {l : Lexer}
    (h : at? text offset mode = some l) : l.mode = mode := by
  obtain ⟨parts, -, rfl⟩ := Option.map_eq_some_iff.mp h
  rfl

namespace Parse

section
variable {text : List Char} (hsize : byteSize text ≤ maxOffset)
include hsize

theorem keepsOpeners {n : Place} (hn : n ∈ (ofText text).root.elements) : n.tree.KeepsOpeners := by
  obtain ⟨items, l, h⟩ := Reading.exists_lines text
  have hitems : Item.KeepOpeners .line (fileItems items l) :=
    (Reading.derives_lines _ trivial h).keepOpeners.append
      (Item.keepOpeners_token fun _ => by rw [kind_of_lines h]; decide)
  have hroot : (ofText text).root.tree.All Tree.KeepsOpeners := by
    rw [tree_of_lines h hsize]
    exact hitems.over (.inr rfl) (Item.spaced_forest _)
  exact (Place.all_elements hroot n hn).self

/-- What closes a construct is no token of any mode but the construct's own. -/
theorem not_closer_of_child {n leaf : Place} {i : Nat} (hi : n.children[i]? = some leaf)
    (hleaf : leaf ∈ (ofText text).root.leaves) (hn : n.kind.isDelimited = false) :
    leaf.kind ∉ [Kind.quote, .compoundClose] := by
  intro hk
  have hblank := (show ∀ k ∈ [Kind.quote, .compoundClose], k ≠ .whitespace by decide) _ hk
  obtain ⟨l, hat, -, hrelabels⟩ := mode_discipline text hsize leaf hleaf hblank
  have hmode := Place.contextMode_of_child hi hn
  rw [← Lexer.mode_of_at hat] at hmode
  rcases hrelabels with hkind | ⟨-, ⟨hkind, -⟩ | hkind⟩
  · rw [hkind] at hk
    rcases l.kind_cases with hl | hl | hl
    · rw [hl] at hk
      exact absurd hk (by decide)
    · rw [hl] at hk
      exact absurd hk (by decide)
    · exact (show ∀ mode ∈ Mode.plain, ∀ k ∈ mode.kinds,
        k ∉ [Kind.quote, .compoundClose] by decide) _ hmode _ hl hk
  · rw [hkind] at hk
    exact absurd hk (by decide)
  · exact (show ∀ k ∈ Kind.contextualKeywords, k ∉ [Kind.quote, .compoundClose] by decide) _ hkind hk

/-- A delimiter is a child of a string or a macro reference. -/
theorem delimited_of_quote {leaf : Place} (hleaf : leaf ∈ (ofText text).root.leaves) (hk : leaf.kind ∈ Pair.quotes) :
    ∃ n ∈ (ofText text).root.nodes, leaf ∈ n.children ∧ n.kind.isDelimited = true := by
  obtain ⟨hmem, hisLeaf⟩ := Place.mem_leaves_iff.mp hleaf
  rcases Place.eq_or_child hmem with rfl | ⟨n, hn, i, hi⟩
  · obtain ⟨items, l, h⟩ := Reading.exists_lines text
    rw [(holds_of_lines h hsize).isNode] at hisLeaf
    cases hisLeaf
  · have hchild := List.mem_of_getElem? hi
    refine ⟨n, hn, hchild, ?_⟩
    by_contra hplain
    rw [Bool.not_eq_true] at hplain
    have hopener := keepsOpeners hsize (Place.mem_nodes_iff.mp hn).1 hplain leaf.tree (Place.tree_mem_children hchild)
    have hcloser := not_closer_of_child hsize hi hleaf hplain
    have hclosers : ∀ k ∈ Pair.quotes, k ∉ Kind.constructOpeners → k ∈ [Kind.quote, .compoundClose] := by decide
    exact hcloser (hclosers _ hk hopener)

end

end Parse

/-! ## Closed constructs and their pairs -/

theorem Construct.holds_no_quotes (q : Construct) : ∀ k ∈ Pair.quotes, q.kind.holds k = false := by
  rcases q with _ | ⟨family, _⟩
  · decide
  · cases family <;> exact List.forall_mem_cons.mpr ⟨rfl, List.forall_mem_cons.mpr ⟨rfl, List.forall_mem_cons.mpr
      ⟨rfl, List.forall_mem_cons.mpr ⟨rfl, List.forall_mem_singleton.mpr rfl⟩⟩⟩⟩

theorem Tree.Nests.not_quote {complete : Bool} {q : Construct} {t : Tree} (h : Nests complete (.within q) t) :
    t.kind ∉ Pair.quotes := by
  intro hk
  rcases h.holds with hholds | ⟨u, rfl, -⟩
  · rw [q.holds_no_quotes _ hk] at hholds
    cases hholds
  · exact absurd hk (by decide : Kind.error ∉ Pair.quotes)

/-- The first and the last leaf of a node are its pair where they are its delimiters. -/
theorem Pair.ofNode_of_leaves {n first last : Place} {mid : List Place} {opener closer : Kind}
    (hk : delimiters? n.kind = some (opener, closer)) (hleaves : n.leaves = first :: (mid ++ [last]))
    (hfirst : first.kind = opener) (hlast : last.kind = closer) : ofNode? n = some ⟨first.span, last.span⟩ := by
  unfold ofNode?
  rw [hk, hleaves]
  cases mid with
  | nil => simp [hfirst, hlast]
  | cons second mid => simp [hfirst, hlast]

structure Place.IsClosed (n o c : Place) : Prop where
  delimiters : n.childLeaves.filter (Pair.quotes.contains ·.kind) = [o, c]
  pair : Pair.ofNode? n = some ⟨o.span, c.span⟩

theorem Place.isClosed_of_children {n : Place} {q : Construct} {o c : Tree} {ts : List Tree} (hk : n.kind = q.kind)
    (hchildren : n.tree.children = o :: (ts ++ [c])) (ho : o.IsToken q.opener) (hc : c.IsToken q.closer)
    (hts : ∀ u ∈ ts, u.kind ∉ Pair.quotes) : ∃ first last, n.IsClosed first last := by
  rw [← Place.map_tree_children_eq] at hchildren
  obtain ⟨first, rest, hplaces, hfirst, hrest⟩ := List.map_eq_cons_iff.mp hchildren
  obtain ⟨mid, lasts, rfl, hmid, hlasts⟩ := List.map_eq_append_iff.mp hrest
  obtain ⟨last, rfl, hlast⟩ := List.map_eq_singleton_iff.mp hlasts
  obtain ⟨hopener, hcloser⟩ := Pair.mem_quotes q.delimiters_kind
  obtain ⟨word, rfl, -⟩ := ho
  obtain ⟨word', rfl, -⟩ := hc
  have hleaf : first.isLeaf = true ∧ first.kind = q.opener := by simp [isLeaf, kind, hfirst, Tree.isLeaf, Tree.kind]
  have hleaf' : last.isLeaf = true ∧ last.kind = q.closer := by simp [isLeaf, kind, hlast, Tree.isLeaf, Tree.kind]
  have hnode : n.isLeaf = false := isLeaf_of_mem_children (by rw [hplaces]; exact List.mem_cons_self)
  have hnone : (mid.filter (·.isLeaf)).filter (Pair.quotes.contains ·.kind) = [] := by
    rw [List.filter_eq_nil_iff]
    intro p hp hquote
    have hkind : p.kind ∈ Pair.quotes := by simpa using hquote
    exact hts p.tree (hmid ▸ List.mem_map_of_mem (List.mem_of_mem_filter hp)) hkind
  have hleaves : n.leaves = first :: (mid.flatMap leaves ++ [last]) := by
    rw [leaves_node hnode, hplaces, List.flatMap_cons, List.flatMap_append, List.flatMap_singleton,
      leaves_leaf hleaf.1, leaves_leaf hleaf'.1]
    rfl
  refine ⟨first, last, ?_, Pair.ofNode_of_leaves (hk ▸ q.delimiters_kind) hleaves hleaf.2 hleaf'.2⟩
  rw [childLeaves, hplaces, List.filter_cons_of_pos hleaf.1, List.filter_append, List.filter_cons_of_pos hleaf'.1,
    List.filter_cons_of_pos (by simpa [hleaf.2] using hopener), List.filter_append, hnone,
    List.filter_nil, List.filter_cons_of_pos (by simpa [hleaf'.2] using hcloser)]
  rfl

namespace Parse

/-- Where nothing is found every string and every macro reference with a closer of its own is closed. -/
theorem isClosed_of_node {text : List Char} (hsize : byteSize text ≤ maxOffset) (hfound : (ofText text).findings = [])
    {n : Place} (hn : n ∈ (ofText text).root.nodes) (hk : n.kind.isDelimited = true) (hne : n.kind ≠ .globalMacro) :
    ∃ o c, n.IsClosed o c := by
  obtain ⟨complete, outer, hsits⟩ := sits_of_node hsize hn
  have hcomplete : complete = true := by
    by_contra hopen
    rw [Bool.not_eq_true] at hopen
    subst hopen
    obtain ⟨f, hf, -⟩ := tells_of_open hsize (Place.mem_nodes_iff.mp hn).1 hsits.nests.open_of_incomplete
    rw [hfound] at hf
    cases hf
  subst hcomplete
  obtain ⟨q, o, ts, cs, -, hkind, hchildren, ho, hts, hcs⟩ := hsits.nests.construct_cases hk hne
  obtain ⟨c, rfl, hc⟩ : ∃ c, cs = [c] ∧ c.IsToken q.closer := by
    cases hcs with
    | cons hc hrest =>
      cases hrest
      exact ⟨_, rfl, hc⟩
  exact Place.isClosed_of_children hkind hchildren ho hc fun u hu => (hts u hu).not_quote

/-- Where nothing is found in a text every delimiter of a string or a macro reference is an end of one pair, whose
other end is the other delimiter among the children of its node. -/
theorem quotes_are_paired (text : List Char) (hsize : byteSize text ≤ maxOffset) :
    let p := ofText text
    p.diagnostics = [] → ∀ leaf ∈ p.root.leaves, leaf.kind ∈ Pair.quotes →
      ∃ n ∈ p.root.nodes, n.kind.isDelimited = true ∧
        ∃ o c, n.childLeaves.filter (Pair.quotes.contains ·.kind) = [o, c] ∧ (leaf = o ∨ leaf = c) ∧
          (Pair.ofTree p.tree).filter (Pair.HasEnd leaf.span ·) = [⟨o.span, c.span⟩] := by
  intro p hnone leaf hleaf hk
  have hfound : p.findings = [] := List.map_eq_nil_iff.mp hnone
  have horder := inOrder_leaves text hsize
  have hread : ∀ q ∈ p.root.nodes, ∀ pair, Pair.ofNode? q = some pair → Construct.IsRead [] q.region :=
    fun q hq pair h => hfound ▸ isRead_of_pair hsize hq h
  obtain ⟨n, hn, hchild, hdelimited⟩ := delimited_of_quote hsize hleaf hk
  have hne : n.kind ≠ .globalMacro := by
    intro hmacro
    obtain ⟨complete, outer, hsits⟩ := sits_of_node hsize hn
    obtain ⟨kinds, hkinds, htokens⟩ := hsits.nests.reference_cases hmacro
    have hmem : leaf.kind ∈ kinds :=
      Tree.map_kind_of_tokens htokens ▸ List.mem_map_of_mem (Place.tree_mem_children hchild)
    exact (show ∀ complete, ∀ kinds ∈ Kind.references complete, ∀ k ∈ kinds, k ∉ Pair.quotes by decide)
      complete kinds hkinds _ hmem hk
  obtain ⟨o, c, hclosed⟩ := isClosed_of_node hsize hfound hn hdelimited hne
  have hend : leaf = o ∨ leaf = c := by
    have hmem : leaf ∈ n.childLeaves.filter (Pair.quotes.contains ·.kind) :=
      List.mem_filter.mpr ⟨List.mem_filter.mpr ⟨hchild, (Place.mem_leaves_iff.mp hleaf).2⟩, by simpa using hk⟩
    rw [hclosed.delimiters] at hmem
    simpa using hmem
  have hpair : ⟨o.span, c.span⟩ ∈ Pair.ofTree p.tree := Pair.mem_ofTree.mpr (.inr ⟨n, hn, hclosed.pair⟩)
  have hdistinct := Pair.distinct_ofTree horder hread
  refine ⟨n, hn, hdelimited, o, c, hclosed.delimiters, hend,
    Pair.filter_end (Pair.nodup_ofTree horder hread) (fun a ha b hb hs hs' => ?_) hpair ?_⟩
  · exact (hdistinct.separate a ha b hb).eq_of_end (hdistinct.separate b hb a ha) Pair.not_loose_nil hs hs'
  · exact hend.imp (congrArg Place.span) (congrArg Place.span)

theorem quotes_are_paired_nested :
    let text := "display `\"a `b' \"c\" $d\"' \"e\" `f`g''\n".toList
    let p := ofText text
    byteSize text ≤ maxOffset ∧ p.diagnostics = [] ∧ ∀ leaf ∈ p.root.leaves, leaf.kind ∈ Pair.quotes →
      ∃ n ∈ p.root.nodes, n.kind.isDelimited = true ∧
        ∃ o c, n.childLeaves.filter (Pair.quotes.contains ·.kind) = [o, c] ∧ (leaf = o ∨ leaf = c) ∧
          (Pair.ofTree p.tree).filter (Pair.HasEnd leaf.span ·) = [⟨o.span, c.span⟩] := by
  have hsize : byteSize "display `\"a `b' \"c\" $d\"' \"e\" `f`g''\n".toList ≤ maxOffset := by decide
  have hnone : (ofText "display `\"a `b' \"c\" $d\"' \"e\" `f`g''\n".toList).diagnostics = [] := by decide +kernel
  exact ⟨hsize, hnone, quotes_are_paired _ hsize hnone⟩

end Parse

end Dofile
