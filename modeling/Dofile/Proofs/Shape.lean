import Dofile.Proofs.FormRules
import Dofile.Proofs.Walk
import Dofile.Proofs.Whole

/-!
# Shape of a parse

The children of every node of a parse have the form of its kind. So line breaks stand in
files, programs and mata blocks only, and the parts of a command are its children in their order.
-/

namespace Dofile

theorem Tree.All.self {P : Tree → Prop} {t : Tree} (h : t.All P) : P t := by
  cases t with
  | leaf k text => exact h
  | node k ts => exact h.1

namespace Place

theorem map_tree_children_eq (p : Place) : p.children.map tree = p.tree.children := by
  cases htree : p.tree with
  | leaf kind text => simp [children, htree, Tree.children]
  | node kind ts => exact map_tree_of_node htree

theorem tree_mem_children {p c : Place} (hc : c ∈ p.children) : c.tree ∈ p.tree.children :=
  map_tree_children_eq p ▸ List.mem_map_of_mem hc

theorem children_eq_singleton {p c : Place} (hc : c ∈ p.children) (htree : p.tree.children = [c.tree]) :
    p.children = [c] := by
  rw [← map_tree_children_eq] at htree
  obtain ⟨d, hd, -⟩ := List.map_eq_singleton_iff.mp htree
  rw [hd] at hc ⊢
  rw [List.mem_singleton.mp hc]

theorem last_of_tree {p : Place} {t : Tree} (h : p.tree.children.getLast? = some t) :
    ∃ c, p.children.getLast? = some c ∧ c.tree = t ∧ c.stop = p.stop := by
  rw [← map_tree_children_eq, List.getLast?_map] at h
  obtain ⟨c, hc, htree⟩ := Option.map_eq_some_iff.mp h
  have htiles := tiles_children (isLeaf_of_mem_children (List.mem_of_getLast? hc))
  exact ⟨c, hc, htree, htiles.stop_getLast (by rw [List.getLast?_map, hc]; rfl)⟩

theorem all_child {P : Tree → Prop} {p c : Place} (h : p.tree.All P) (hc : c ∈ p.children) : c.tree.All P := by
  have hmem : c.tree ∈ p.tree.children := tree_mem_children hc
  obtain ⟨tree, start, above⟩ := p
  cases tree with
  | leaf kind text => cases hmem
  | node kind ts => exact (Tree.allOf_iff ts).mp h.2 _ hmem

theorem all_elements {P : Tree → Prop} {p : Place} (h : p.tree.All P) : ∀ q ∈ p.elements, q.tree.All P := by
  induction p using induct with
  | step p ih =>
    intro q hq
    rcases mem_elements_iff.mp hq with rfl | ⟨c, hc, hq⟩
    · exact h
    · exact ih c hc (all_child h hc) q hq

def contents (p : Place) : List Place := p.children.filter (·.kind != .whitespace)

theorem map_tree_contents (p : Place) : p.contents.map tree = p.tree.contents := by
  rw [contents, Tree.contents, ← map_tree_children_eq, List.filter_map]
  rfl

theorem contents_mem_form {p : Place} (h : p.tree.IsShaped) (hnode : p.isLeaf = false) :
    p.tree.contents ∈ p.kind.form := by
  obtain ⟨tree, start, above⟩ := p
  cases tree with
  | leaf kind text => cases hnode
  | node kind ts => exact h.2

end Place

/-! ## Line breaks -/

namespace Form

def Unbroken (L : Form) : Prop := ∀ ts ∈ L, ∀ t ∈ ts, t.kind ≠ .newline

section
variable {L M : Form} {P : Tree → Prop}

theorem Unbroken.mul (h : L.Unbroken) (h' : M.Unbroken) : (L * M).Unbroken := by
  intro ts hts t ht
  obtain ⟨us, hus, vs, hvs, rfl⟩ := Language.mem_mul.mp hts
  exact (List.mem_append.mp ht).elim (h us hus t) (h' vs hvs t)

theorem Unbroken.add (h : L.Unbroken) (h' : M.Unbroken) : (L + M).Unbroken :=
  fun ts hts => hts.elim (h ts) (h' ts)

theorem unbroken_each (h : ∀ t, P t → t.kind ≠ .newline) : (each P).Unbroken := fun _ hts t ht => h t (hts t ht)

theorem Unbroken.mono (h : M.Unbroken) (hLM : L ≤ M) : L.Unbroken := fun ts hts => h ts (hLM hts)

theorem Unbroken.optional (h : L.Unbroken) : (optional L).Unbroken :=
  Unbroken.add ((unbroken_each fun _ h => h).mono (one_le_each fun t => t.kind ≠ .newline)) h

theorem unbroken_one {kind : Kind} (h : kind ≠ .newline) : (one kind).Unbroken :=
  (unbroken_each fun _ ht => ht).mono (only_le_each fun _ ht => by rw [ht]; exact h)

theorem IsArgument.isReserved {t : Tree} (h : IsArgument t) : t.kind.isReserved = false := h.self

theorem unbroken_arguments : arguments.Unbroken := unbroken_each fun t ht he => by
  have := ht.isReserved
  rw [he] at this
  cases this

theorem IsRemark.ne_newline {t : Tree} (h : IsRemark t) : t.kind ≠ .newline := by
  intro he
  rcases h with h | h <;> rw [he] at h <;> cases h

theorem unbroken_remarks : remarks.Unbroken := unbroken_each fun _ => IsRemark.ne_newline

end

end Form

def Kind.multiline : List Kind := [.sourceFile, .programDefinition, .mataBlock]

open Form in
theorem Kind.unbroken_form {kind : Kind} (h : kind ∉ multiline) : kind.form.Unbroken := by
  have hone : ∀ {k : Kind}, k ≠ .newline → (one k).Unbroken := unbroken_one
  cases kind with
  | sourceFile | programDefinition | mataBlock => exact absurd (by decide) h
  | name => exact hone (by decide)
  | commandPrefix => exact (hone (by decide)).mul (hone (by decide)).optional
  | comment => exact (unbroken_each fun _ => IsRemark.ne_newline).mono (only_le_each fun _ ht => ht)
  | command =>
    have hprefixes : (many .commandPrefix).Unbroken := unbroken_each fun t ht => by rw [ht]; decide
    exact ((hprefixes.mul (hone (by decide))).add (hone (by decide))).mul unbroken_arguments
  | macroDefinition =>
    have hnames : (many .name).Unbroken := unbroken_each fun t ht => by rw [ht]; decide
    exact ((((hone (by decide)).add (hone (by decide))).mul (hone (by decide)).optional).mul unbroken_arguments).add
      (((hone (by decide)).mul hnames).mul unbroken_remarks)
  | blockClose => exact (hone (by decide)).mul unbroken_arguments
  | doubleString | compoundString | localMacro | globalMacro => exact unbroken_arguments
  | error =>
    exact ((unbroken_arguments.add ((hone (by decide)).mul unbroken_remarks)).add (hone (by decide))).add
      (hone (by decide))
  | _ => exact fun _ hts => hts.elim

theorem Place.ne_newline_of_child {p c : Place} (hc : c ∈ p.children) (hform : p.tree.contents ∈ p.kind.form)
    (h : p.kind ∉ Kind.multiline) : c.kind ≠ .newline := by
  intro hkind
  have hcontent : c.tree ∈ p.tree.contents := by
    rw [← map_tree_contents]
    exact List.mem_map_of_mem (List.mem_filter.mpr ⟨hc, by rw [hkind]; rfl⟩)
  exact Kind.unbroken_form h _ hform _ hcontent hkind

/-! ## The parts of a command -/

namespace Typed

structure IsRow (row prefixes : List Place) (name? : Option Place) (others : List Place) : Prop where
  eq : row = prefixes ++ name?.toList ++ others
  prefixes : ∀ c ∈ prefixes, c.kind = .commandPrefix
  name : ∀ c ∈ name?.toList, c.kind = .name
  others : ∀ c ∈ others, c.kind ≠ .commandPrefix ∧ c.kind ≠ .name

/-- A command without prefixes is the only one that may be without a name. -/
theorem exists_isRow {row : List Place} (h : row.map Place.tree ∈ Kind.command.form) :
    ∃ prefixes name? others, IsRow row prefixes name? others ∧ (prefixes = [] ∨ name?.isSome = true) := by
  obtain ⟨heads, hheads, arguments, harguments, hrow⟩ := Language.mem_mul.mp h
  obtain ⟨front, others, rfl, rfl, rfl⟩ := List.map_eq_append_iff.mp hrow.symm
  have hothers : ∀ c ∈ others, c.kind ≠ .commandPrefix ∧ c.kind ≠ .name := by
    intro c hc
    have hreserved := (harguments c.tree (List.mem_map_of_mem hc)).isReserved
    constructor <;> intro he <;> rw [show c.tree.kind = _ from he] at hreserved <;> cases hreserved
  rcases hheads with hheads | ⟨e, hfront, he⟩
  · obtain ⟨kinds, hkinds, _, ⟨n, rfl, hn⟩, hfront⟩ := Language.mem_mul.mp hheads
    obtain ⟨prefixes, last, rfl, rfl, hlast⟩ := List.map_eq_append_iff.mp hfront.symm
    obtain ⟨name, rfl, rfl⟩ := List.map_eq_singleton_iff.mp hlast
    refine ⟨prefixes, some name, others, ⟨rfl, fun c hc => hkinds c.tree (List.mem_map_of_mem hc), fun c hc => ?_,
      hothers⟩, .inr rfl⟩
    rw [List.mem_singleton.mp hc]
    exact hn
  · obtain ⟨error, rfl, rfl⟩ := List.map_eq_singleton_iff.mp hfront
    refine ⟨[], none, error :: others, ⟨rfl, by simp, by simp, fun c hc => ?_⟩, .inl rfl⟩
    rcases List.mem_cons.mp hc with rfl | hc
    · rw [show c.kind = .error from he]
      decide
    · exact hothers c hc

theorem isLeaf_eq {p : Place} (h : p.tree.IsShaped) : p.isLeaf = !p.kind.isNode := by
  obtain ⟨tree, start, above⟩ := p
  cases tree with
  | leaf kind text =>
    have hkind : kind.isNode = false := h
    simp [Place.isLeaf, Tree.isLeaf, Place.kind, Tree.kind, hkind]
  | node kind ts =>
    have hkind : kind.isNode = true := h.1
    simp [Place.isLeaf, Tree.isLeaf, Place.kind, Tree.kind, hkind]

theorem filter_contents {p : Place} {choice : Place → Bool}
    (h : ∀ c ∈ p.children, choice c = true → c.kind ≠ .whitespace) :
    p.contents.filter choice = p.children.filter choice := by
  rw [Place.contents, List.filter_filter]
  refine List.filter_congr fun c hc => ?_
  cases hchoice : choice c with
  | false => rfl
  | true => simpa using h c hc hchoice

def isSignificant (c : Place) : Bool :=
  if c.isLeaf then !c.kind.isTrivia && !c.kind.isComment else c.kind != .comment

theorem isSignificant_node {c : Place} (h : c.tree.IsShaped) (hnode : c.kind.isNode = true)
    (hcomment : c.kind ≠ .comment) : isSignificant c = true := by
  simp [isSignificant, isLeaf_eq h, hnode, hcomment]

theorem significant_eq {p : Place} (h : ∀ c ∈ p.children, c.tree.IsShaped) :
    significant p = p.contents.filter isSignificant := by
  refine (filter_contents fun c hc hchoice hws => ?_).symm
  have hleaf := isLeaf_eq (h c hc)
  rw [hws] at hleaf
  have hnode : Kind.whitespace.isNode = false := by decide
  simp [hws, hleaf, hnode, Kind.isTrivia] at hchoice

theorem childNodes_filter {p : Place} (h : ∀ c ∈ p.children, c.tree.IsShaped) {kind : Kind}
    (hkind : kind.isNode = true) : p.childNodes.filter (·.kind == kind) = p.contents.filter (·.kind == kind) := by
  rw [filter_contents fun c _ hc hws => ?_, Place.childNodes, List.filter_filter]
  · refine List.filter_congr fun c hc => ?_
    cases hchoice : c.kind == kind with
    | false => rfl
    | true => simp [isLeaf_eq (h c hc), beq_iff_eq.mp hchoice, hkind]
  · rw [hws] at hc
    rw [← beq_iff_eq.mp hc] at hkind
    exact absurd hkind (by decide)

theorem filter_kind_eq {row : List Place} {kind : Kind} (h : ∀ c ∈ row, c.kind = kind) :
    row.filter (·.kind == kind) = row :=
  List.filter_eq_self.mpr fun c hc => beq_iff_eq.mpr (h c hc)

theorem filter_kind_eq_nil {row : List Place} {kind : Kind} (h : ∀ c ∈ row, c.kind ≠ kind) :
    row.filter (·.kind == kind) = [] :=
  List.filter_eq_nil_iff.mpr fun c hc hk => h c hc (beq_iff_eq.mp hk)

namespace IsRow

variable {row prefixes others : List Place} {name? : Option Place} (h : IsRow row prefixes name? others)
include h

theorem kind_heads : ∀ c ∈ prefixes ++ name?.toList, c.kind = .commandPrefix ∨ c.kind = .name := fun c hc =>
  (List.mem_append.mp hc).imp (h.prefixes c) (h.name c)

theorem filter_commandPrefix : row.filter (·.kind == .commandPrefix) = prefixes := by
  rw [h.eq, List.filter_append, List.filter_append, filter_kind_eq h.prefixes,
    filter_kind_eq_nil fun c hc => by rw [h.name c hc]; decide, filter_kind_eq_nil fun c hc => (h.others c hc).1,
    List.append_nil, List.append_nil]

theorem filter_name : row.filter (·.kind == .name) = name?.toList := by
  rw [h.eq, List.filter_append, List.filter_append, filter_kind_eq h.name,
    filter_kind_eq_nil fun c hc => by rw [h.prefixes c hc]; decide, filter_kind_eq_nil fun c hc => (h.others c hc).2,
    List.append_nil, List.nil_append]

theorem filter_isSignificant (hshaped : ∀ c ∈ row, c.tree.IsShaped) :
    row.filter isSignificant = prefixes ++ name?.toList ++ others.filter isSignificant := by
  have hheads : ∀ c ∈ prefixes ++ name?.toList, isSignificant c = true := by
    intro c hc
    have hc' : c.tree.IsShaped := hshaped c (h.eq ▸ List.mem_append_left _ hc)
    rcases h.kind_heads c hc with he | he
    · exact isSignificant_node hc' (by rw [he]; decide) (by rw [he]; decide)
    · exact isSignificant_node hc' (by rw [he]; decide) (by rw [he]; decide)
  rw [h.eq, List.filter_append, List.filter_eq_self.mpr hheads]

theorem dropWhile_heads (choice : Place → Bool) :
    (prefixes ++ name?.toList ++ others.filter choice).dropWhile
      (fun c => [Kind.commandPrefix, .name].contains c.kind) = others.filter choice := by
  rw [List.dropWhile_append_of_pos fun c hc => by rcases h.kind_heads c hc with he | he <;> rw [he] <;> rfl]
  cases hrest : others.filter choice with
  | nil => rfl
  | cons c rest =>
    have hc : c ∈ others := List.mem_of_mem_filter (hrest ▸ List.mem_cons_self)
    rw [List.dropWhile_cons_of_neg]
    simpa using h.others c hc

/-- Behind a prefix comes another, or the name. -/
theorem next_of_prefix (hname : prefixes = [] ∨ name?.isSome = true) {before after : List Place} {x : Place}
    (hrow : row = before ++ x :: after) (hx : x.kind = .commandPrefix) :
    ∃ y rest, after = y :: rest ∧ (y.kind = .commandPrefix ∨ name? = some y) := by
  have hnot : ∀ c ∈ name?.toList ++ others, c.kind ≠ .commandPrefix := by
    intro c hc
    rcases List.mem_append.mp hc with hc | hc
    · rw [h.name c hc]
      decide
    · exact (h.others c hc).1
  have hsplit := hrow.symm.trans (h.eq.trans (List.append_assoc _ _ _))
  rcases List.append_eq_append_iff.mp hsplit with ⟨front, rfl, htail⟩ | ⟨back, rfl, htail⟩
  · cases front with
    | nil =>
      rw [List.nil_append] at htail
      exact absurd hx (hnot x (htail ▸ List.mem_cons_self))
    | cons c front =>
      obtain ⟨rfl, rfl⟩ := List.cons.inj htail
      cases front with
      | cons y front => exact ⟨y, _, rfl, .inl (h.prefixes y (by simp))⟩
      | nil =>
        obtain ⟨y, hy⟩ := Option.isSome_iff_exists.mp (hname.resolve_left (by simp))
        exact ⟨y, others, by rw [hy]; rfl, .inr hy⟩
  · exact absurd hx (hnot x (by rw [htail]; simp))

end IsRow

structure ListsParts (p : Place) : Prop where
  order : significant p =
    p.childNodes.filter (·.kind == .commandPrefix) ++ (p.childNode? .name).toList ++ (Command.ofNode p).arguments
  prefixes : (Command.ofNode p).prefixes = (p.childNodes.filter (·.kind == .commandPrefix)).map CommandPrefix.ofNode
  name : (Command.ofNode p).name? = (p.childNode? .name).map Place.trimmedText

theorem listsParts {p : Place} (h : ∀ c ∈ p.children, c.tree.IsShaped)
    (hform : p.tree.contents ∈ Kind.command.form) : ListsParts p := by
  rw [← Place.map_tree_contents] at hform
  obtain ⟨prefixes, name?, others, hrow, -⟩ := exists_isRow hform
  have hprefixes : p.childNodes.filter (·.kind == .commandPrefix) = prefixes := by
    rw [childNodes_filter h (by decide), hrow.filter_commandPrefix]
  have hnames : p.childNodes.filter (·.kind == .name) = name?.toList := by
    rw [childNodes_filter h (by decide), hrow.filter_name]
  have hname : p.childNode? .name = name? := by
    rw [Place.childNode?, ← List.head?_filter, hnames]
    cases name? <;> rfl
  have hsignificant : significant p = prefixes ++ name?.toList ++ others.filter isSignificant := by
    rw [significant_eq h, hrow.filter_isSignificant fun c hc => h c (List.mem_of_mem_filter hc)]
  have harguments : (Command.ofNode p).arguments = others.filter isSignificant := by
    rw [Command.ofNode, significantAfter, hsignificant, hrow.dropWhile_heads]
  refine ⟨?_, rfl, ?_⟩
  · rw [hsignificant, hprefixes, hname, harguments]
  · simp only [Command.ofNode, Typed.name?, names, hnames, hname]
    cases name? <;> rfl

end Typed

/-! ## The whole text -/

namespace Parse

theorem shaped_of_lines {text : List Char} {items : List Item} {l : Lexer}
    (h : (Reading.lines text.length).leads (.ofText text) items l) :
    (Tree.node .sourceFile (Script.forest (Item.scriptsAll (fileItems items l)))).All Tree.IsShaped := by
  have hitems : Item.Yield Form.body items := Reading.yields_lines text.length (c := fun _ => True) trivial h
  have hlast : Item.Yield (Form.one .eof) [l.item] := by
    have hkind := kind_of_lines h
    rw [Lexer.item, hkind]
    exact Item.yield_token l (by decide)
  have hws : ∀ t ∈ Item.trees (fileItems items l), t.kind ≠ .whitespace := by
    intro t ht
    rw [fileItems, Item.trees_append, List.mem_append] at ht
    rcases ht with ht | ht
    · exact (account_of_lines h).ne_whitespace t ht
    · obtain ⟨u, hu, hkind⟩ := hlast.mem
      rw [hu, List.mem_singleton] at ht
      rw [ht, hkind]
      decide
  exact (hitems.append hlast).over (Script.filter_forest hws) (Item.spaced_forest _) (by decide) le_rfl

theorem shaped {text : List Char} (hsize : byteSize text ≤ maxOffset) :
    ∀ q ∈ (ofText text).root.elements, q.tree.All Tree.IsShaped := by
  obtain ⟨items, l, h⟩ := Reading.exists_lines text
  exact Place.all_elements (tree_of_lines h hsize ▸ shaped_of_lines h)

/-- A child of the file is a tree of its items, or the leaf of the end of the text or of blanks. -/
theorem child_cases {text : List Char} {items : List Item} {l : Lexer}
    (h : (Reading.lines text.length).leads (.ofText text) items l) (hsize : byteSize text ≤ maxOffset) {t : Tree}
    (ht : t ∈ (ofText text).root.tree.children) : t ∈ Item.trees items ∨ ∃ kind word, t = .leaf kind word := by
  rw [tree_of_lines h hsize] at ht
  rcases Script.mem_forest ht with ht | ⟨blanks, rfl⟩
  · change t ∈ Item.trees (items ++ [l.item]) at ht
    rw [Item.trees_append, List.mem_append, Lexer.item, Item.trees_token, List.mem_singleton] at ht
    exact ht.imp_right fun ht => ⟨_, _, ht⟩
  · exact .inr ⟨_, _, rfl⟩

/-- The children of every node, blanks aside, have the form of its kind. So line breaks stand in
nodes of several lines only, and a command is read in the parts that it was written in. -/
theorem nodes_have_forms (text : List Char) (hsize : byteSize text ≤ maxOffset) :
    let root := (ofText text).root
    (∀ p ∈ root.nodes, p.tree.contents ∈ p.kind.form) ∧
      (∀ p ∈ root.leaves, p.kind = .newline → ∃ parent, p.parent? = some parent ∧ parent.kind ∈ Kind.multiline) ∧
      ∀ p ∈ root.nodes, p.kind = .command → Typed.ListsParts p := by
  obtain ⟨items, l, h⟩ := Reading.exists_lines text
  intro root
  have hroot : root.tree = .node .sourceFile (Script.forest (Item.scriptsAll (fileItems items l))) := by
    rw [show root = (ofText text).root from rfl, ofText_eq h hsize]
    rfl
  have hall : ∀ p ∈ root.elements, p.tree.All Tree.IsShaped :=
    Place.all_elements (by rw [hroot]; exact shaped_of_lines h)
  have hforms : ∀ p ∈ root.nodes, p.tree.contents ∈ p.kind.form := by
    intro p hp
    obtain ⟨hp, hnode⟩ := Place.mem_nodes_iff.mp hp
    exact Place.contents_mem_form (hall p hp).self hnode
  refine ⟨hforms, ?_, ?_⟩
  · intro p hp hkind
    obtain ⟨hp, -⟩ := Place.mem_leaves_iff.mp hp
    -- the parent has the form of its kind, and the forms of all other kinds are unbroken
    rcases Place.eq_or_child hp with rfl | ⟨parent, hparent, i, hi⟩
    · rw [Place.kind, hroot] at hkind
      cases hkind
    · refine ⟨parent, (Place.parent_of_child hi).1, ?_⟩
      by_contra hmultiline
      exact Place.ne_newline_of_child (List.mem_of_getElem? hi) (hforms parent hparent) hmultiline hkind
  · intro p hp hkind
    have hshaped := hall p (Place.mem_nodes_iff.mp hp).1
    exact Typed.listsParts (fun c hc => (Place.all_child hshaped hc).self) (hkind ▸ hforms p hp)

theorem nodes_have_forms_malformed :
    let text := "quietly: display \"a\" /* b */ //\nprogram p\n\x7d\n".toList
    let root := (ofText text).root
    byteSize text ≤ maxOffset ∧ (∀ p ∈ root.nodes, p.tree.contents ∈ p.kind.form) ∧
      (∀ p ∈ root.leaves, p.kind = .newline → ∃ parent, p.parent? = some parent ∧ parent.kind ∈ Kind.multiline) ∧
      ∀ p ∈ root.nodes, p.kind = .command → Typed.ListsParts p := by
  have hsize : byteSize "quietly: display \"a\" /* b */ //\nprogram p\n\x7d\n".toList ≤ maxOffset := by decide
  exact ⟨hsize, nodes_have_forms _ hsize⟩

end Parse

end Dofile
