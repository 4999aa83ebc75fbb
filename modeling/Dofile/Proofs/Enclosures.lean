import Dofile.Proofs.Reports

/-!
# What strings and macro references are made of

A string or a macro reference is its opener, then what it may hold, then its closer. The closer is
missing where the node is alone in a problem node and found to be unterminated. No dollar sign
stands outside of a macro reference.
-/

namespace Dofile

theorem Construct.ne_dollar (q : Construct) :
    q.opener ≠ .dollar ∧ q.closer ≠ .dollar ∧ q.kind.holds .dollar = false := by
  rcases q with _ | ⟨family, _⟩
  · exact ⟨nofun, nofun, rfl⟩
  · cases family <;> exact ⟨nofun, nofun, rfl⟩

namespace Tree

def IsEnclosed (opener closer : Kind) (t : Tree) : Prop :=
  ∃ first items last, t.children = first :: (items ++ last) ∧ first.IsToken opener ∧
    (∀ u ∈ items, t.kind.Holds u) ∧ (last = [] ∨ ∃ c, last = [c] ∧ c.IsToken closer)

/-- The rows of leaves that are a global macro reference. Blanks in it would be leaves of their own. -/
def macroRows : List (List Kind) :=
  [[.dollar, .ident], [.dollar, .leftBrace], [.dollar, .leftBrace, .ident], [.dollar, .leftBrace, .rightBrace],
    [.dollar, .leftBrace, .ident, .rightBrace]]

def HasForm (t : Tree) : Prop :=
  match t.kind with
  | .doubleString => t.IsEnclosed .doubleQuote .doubleQuote
  | .compoundString _ => t.IsEnclosed .compoundOpen .compoundClose
  | .localMacro _ => t.IsEnclosed .backtick .quote
  | .globalMacro => ∃ kinds ∈ macroRows, List.Forall₂ IsToken kinds t.children
  | _ => True

theorem hasForm_of_kind {t : Tree} (h : t.kind.isDelimited = false) : t.HasForm := by
  unfold HasForm
  cases hk : t.kind with
  | doubleString | compoundString | localMacro | globalMacro => rw [hk] at h; cases h
  | _ => trivial

namespace Nests

variable {complete : Bool} {outer : Setting} {t : Tree} (h : Nests complete outer t)
include h

theorem hasForm : t.HasForm := by
  by_cases hk : t.kind.isDelimited = true
  case neg => exact hasForm_of_kind (Bool.eq_false_iff.mpr hk)
  rcases h.delimited_cases hk with ⟨kinds, hkinds, hkind, htokens⟩ | ⟨q, o, ts, cs, -, hkind, hchildren, ho, hts, hcs⟩
  · rw [HasForm, hkind]
    have hrows : ∀ complete, ∀ kinds ∈ Kind.references complete, kinds ∈ macroRows := by decide
    exact ⟨kinds, hrows complete kinds hkinds, htokens⟩
  · have hlast : cs = [] ∨ ∃ c, cs = [c] ∧ c.IsToken q.closer := by
      cases complete with
      | false =>
        cases hcs
        exact .inl rfl
      | true =>
        obtain ⟨c, _, hc, hnil, rfl⟩ := List.forall₂_cons_left_iff.mp hcs
        cases hnil
        exact .inr ⟨c, rfl, hc⟩
    have henclosed : t.IsEnclosed q.opener q.closer :=
      ⟨o, ts, cs, hchildren, ho, fun u hu => hkind ▸ (hts u hu).holds, hlast⟩
    rw [HasForm, hkind]
    rcases q with _ | ⟨family, _⟩
    · exact henclosed
    · cases family <;> exact henclosed

/-- A string or a macro reference begins with a leaf of its own. -/
theorem first_leaf (hk : t.kind.isDelimited = true) : ∃ kind word ts, t.children = .leaf kind word :: ts := by
  rcases h.delimited_cases hk with ⟨kinds, hkinds, -, htokens⟩ | ⟨q, o, ts, cs, -, -, hchildren, ⟨word, rfl, -⟩, -⟩
  · have hdollar : ∀ complete, ∀ kinds ∈ Kind.references complete, kinds.head? = some .dollar := by decide
    obtain ⟨rest, rfl⟩ := List.head?_eq_some_iff.mp (hdollar complete kinds hkinds)
    obtain ⟨_, ts, ⟨word, rfl, -⟩, -, hchildren⟩ := List.forall₂_cons_left_iff.mp htokens
    exact ⟨.dollar, word, ts, hchildren⟩
  · exact ⟨q.opener, word, _, hchildren⟩

/-- A dollar sign begins a macro reference, with a name or a brace behind it. -/
theorem dollar_cases {i : Nat} {word : List Char} (hnode : t.isLeaf = false)
    (hi : t.children[i]? = some (.leaf .dollar word)) :
    t.kind = .globalMacro ∧ i = 0 ∧ ∃ c ∈ t.children[1]?, c.kind = .ident ∨ c.kind = .leftBrace := by
  have hmem := List.mem_of_getElem? hi
  have hdollar : ∀ {kind : Kind}, IsToken kind (.leaf .dollar word) → kind = .dollar :=
    fun ⟨_, htree, _⟩ => (Tree.leaf.inj htree).1.symm
  cases h with
  | leaf => cases hnode
  | token _ htoken =>
    obtain ⟨_, rfl, -⟩ := htoken
    cases hnode
  | node _ hts => cases hts _ hmem with
    | leaf _ hne => exact absurd rfl hne
  | @reference complete _ kinds ts hkinds htokens =>
    have hrow : ∀ complete, ∀ kinds ∈ Kind.references complete, .dollar ∉ kinds.tail ∧
        ∃ k ∈ kinds[1]?, k = .ident ∨ k = .leftBrace := by decide
    obtain ⟨htail, k, hk, hnext⟩ := hrow complete kinds hkinds
    rw [← map_kind_of_tokens htokens] at htail hk
    refine ⟨rfl, ?_, ?_⟩
    · cases i with
      | zero => rfl
      | succ i =>
        have hbehind : .leaf .dollar word ∈ ts.tail := List.mem_of_getElem? (List.getElem?_tail.trans hi)
        rw [← List.map_tail] at htail
        exact absurd (List.mem_map_of_mem hbehind) htail
    · rw [List.getElem?_map] at hk
      obtain ⟨c, hc, rfl⟩ := Option.map_eq_some_iff.mp hk
      exact ⟨c, hc, hnext⟩
  | @construct complete _ q o ts cs _ ho hts hcs =>
    obtain ⟨hopener, hcloser, hholds⟩ := q.ne_dollar
    rcases List.mem_cons.mp hmem with rfl | hmem
    · exact absurd (hdollar ho) hopener
    · rcases List.mem_append.mp hmem with hmem | hmem
      · rcases (hts _ hmem).holds with hitem | ⟨_, htree, -⟩
        · rw [show (Tree.leaf .dollar word).kind = .dollar from rfl, hholds] at hitem
          cases hitem
        · cases htree
      · have hkind : .dollar ∈ q.closers complete := map_kind_of_tokens hcs ▸ List.mem_map_of_mem (f := kind) hmem
        cases complete with
        | false => cases hkind
        | true => exact absurd (List.mem_singleton.mp hkind).symm hcloser
  | givenUp hopen =>
    rw [← List.mem_singleton.mp hmem] at hopen
    cases hopen.isDelimited

end Nests

end Tree

namespace Parse

section
variable {text : List Char} (hsize : byteSize text ≤ maxOffset)
include hsize

/-- A string or a macro reference lacks its closer where it is alone in a problem node and something is
found to be unterminated at its first leaf. -/
theorem isOpen_iff {n : Place} (hn : n ∈ (ofText text).root.nodes) (hk : n.kind.isDelimited = true) :
    n.tree.IsOpen ↔ (∃ e ∈ (ofText text).root.nodes, e.kind = .error ∧ e.children = [n]) ∧
      ∃ first ∈ n.firstLeaf?, ∃ d ∈ (ofText text).diagnostics, d.category = .unterminated ∧
        d.span.start = first.start := by
  obtain ⟨complete, outer, hsits⟩ := sits_of_node hsize hn
  have hmem := (Place.mem_nodes_iff.mp hn).1
  obtain ⟨kind, word, ts, hchildren⟩ := hsits.nests.first_leaf hk
  obtain ⟨first, -, -, hstart, hfirst⟩ := Place.first_of_leaf hchildren
  constructor
  · intro hopen
    obtain ⟨e, hparent, hkind, halone⟩ := hsits.alone ((hsits.nests.open_iff hk).mp hopen)
    obtain ⟨f, hf, htells⟩ := tells_of_open hsize hmem hopen
    have he := (Place.child_of_parent rfl hmem hparent).1
    exact ⟨⟨e, he, hkind, halone⟩, first, hfirst, f.diagnostic, List.mem_map_of_mem hf, htells.category,
      htells.start.symm.trans hstart.symm⟩
  · rintro ⟨-, leaf, hleaf, d, hd, hcategory, hspan⟩
    obtain rfl : first = leaf := Option.some.inj (hfirst.symm.trans hleaf)
    obtain ⟨f, hf, rfl⟩ := List.mem_map.mp hd
    have htells := tells_of_start hsize hmem ⟨kind, word, ts, hchildren⟩ hf hcategory (hspan.trans hstart)
    exact htells.isOpen hk

theorem macro_of_dollar {leaf : Place} (hleaf : leaf ∈ (ofText text).root.leaves) (hk : leaf.kind = .dollar) :
    ∃ n ∈ (ofText text).root.nodes, n.kind = .globalMacro ∧ ∃ next behind, n.children = leaf :: next :: behind ∧
      (next.kind = .ident ∨ next.kind = .leftBrace) := by
  obtain ⟨hmem, hisleaf⟩ := Place.mem_leaves_iff.mp hleaf
  obtain ⟨word, htree⟩ : ∃ word, leaf.tree = .leaf .dollar word := by
    rw [Place.isLeaf] at hisleaf
    cases htree : leaf.tree with
    | node => rw [htree] at hisleaf; cases hisleaf
    | leaf kind word => exact ⟨word, by rw [← hk, Place.kind, htree]; rfl⟩
  rcases Place.eq_or_child hmem with rfl | ⟨n, hn, i, hi⟩
  · obtain ⟨items, l, h⟩ := Reading.exists_lines text
    rw [(holds_of_lines h hsize).isNode] at hisleaf
    cases hisleaf
  obtain ⟨_, _, hsits⟩ := sits_of_node hsize hn
  have hchild : n.tree.children[i]? = some (.leaf .dollar word) := by
    rw [← Place.map_tree_children_eq, List.getElem?_map, hi, Option.map_some, htree]
  obtain ⟨hkind, rfl, c, hc, hnext⟩ := hsits.nests.dollar_cases (Place.mem_nodes_iff.mp hn).2 hchild
  rw [← Place.map_tree_children_eq, List.getElem?_map] at hc
  obtain ⟨next, hnext', rfl⟩ := Option.map_eq_some_iff.mp hc
  rcases hchildren : n.children with _ | ⟨a, _ | ⟨b, behind⟩⟩
  · rw [hchildren] at hi; cases hi
  · rw [hchildren] at hnext'; cases hnext'
  · rw [hchildren] at hi hnext'
    obtain rfl := Option.some.inj hi
    obtain rfl := Option.some.inj hnext'
    exact ⟨n, hn, hkind, b, behind, hchildren, hnext⟩

end

/-- Every string and every macro reference is made of its delimiters and of what it may hold, and it lacks its closer
where it is alone in a problem node and found to be unterminated. Dollar signs stand in macro references only, with a
name or a brace behind them, so a name is missed in empty braces only. -/
theorem delimiters_have_form (text : List Char) (hsize : byteSize text ≤ maxOffset) :
    let p := ofText text
    (∀ n ∈ p.root.nodes, n.tree.HasForm) ∧
      (∀ n ∈ p.root.nodes, n.kind.isDelimited = true → (n.tree.IsOpen ↔
        (∃ e ∈ p.root.nodes, e.kind = .error ∧ e.children = [n]) ∧
          ∃ first ∈ n.firstLeaf?, ∃ d ∈ p.diagnostics, d.category = .unterminated ∧ d.span.start = first.start)) ∧
      (∀ leaf ∈ p.root.leaves, leaf.kind = .dollar → ∃ n ∈ p.root.nodes, n.kind = .globalMacro ∧
        ∃ next behind, n.children = leaf :: next :: behind ∧ (next.kind = .ident ∨ next.kind = .leftBrace)) ∧
      ∀ d ∈ p.diagnostics, d.message = "expected a global macro name" → ∃ n ∈ p.root.nodes, n.kind = .globalMacro ∧
        n.text = "$\x7b\x7d".toList ∧ ∃ o b c, n.children = [o, b, c] ∧ c.kind = .rightBrace ∧ d.span = c.span := by
  refine ⟨fun n hn => ?_, fun n hn hk => isOpen_iff hsize hn hk, fun leaf hleaf hk => macro_of_dollar hsize hleaf hk,
    fun d hd hmessage => ?_⟩
  · obtain ⟨_, _, hsits⟩ := sits_of_node hsize hn
    exact hsits.nests.hasForm
  · obtain ⟨f, hf, hproblem, hspan⟩ := exists_finding hd .expectedGlobalMacroName hmessage
    obtain ⟨⟨tree, start, above⟩, hn, -, htree, hclose⟩ := exists_of_nameless hsize hf hproblem
    obtain rfl : tree = .node .globalMacro
        [.leaf .dollar ['$'], .leaf .leftBrace ['{'], .leaf .rightBrace ['}']] := htree
    exact ⟨_, Place.mem_nodes_iff.mpr ⟨hn, rfl⟩, rfl, rfl, _, _, _, rfl, rfl, hspan.symm.trans hclose⟩

theorem delimiters_have_form_open :
    let text := "display `\"a $\x7b\x7d `b $\x7bc\n\"d `e' $f\" `\"g\"'\n".toList
    let p := ofText text
    byteSize text ≤ maxOffset ∧ (∀ n ∈ p.root.nodes, n.tree.HasForm) ∧
      (∀ n ∈ p.root.nodes, n.kind.isDelimited = true → (n.tree.IsOpen ↔
        (∃ e ∈ p.root.nodes, e.kind = .error ∧ e.children = [n]) ∧
          ∃ first ∈ n.firstLeaf?, ∃ d ∈ p.diagnostics, d.category = .unterminated ∧ d.span.start = first.start)) ∧
      (∀ leaf ∈ p.root.leaves, leaf.kind = .dollar → ∃ n ∈ p.root.nodes, n.kind = .globalMacro ∧
        ∃ next behind, n.children = leaf :: next :: behind ∧ (next.kind = .ident ∨ next.kind = .leftBrace)) ∧
      ∀ d ∈ p.diagnostics, d.message = "expected a global macro name" → ∃ n ∈ p.root.nodes, n.kind = .globalMacro ∧
        n.text = "$\x7b\x7d".toList ∧ ∃ o b c, n.children = [o, b, c] ∧ c.kind = .rightBrace ∧ d.span = c.span := by
  have hsize : byteSize "display `\"a $\x7b\x7d `b $\x7bc\n\"d `e' $f\" `\"g\"'\n".toList ≤ maxOffset := by decide
  exact ⟨hsize, delimiters_have_form _ hsize⟩

end Parse

end Dofile
