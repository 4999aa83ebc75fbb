import Dofile.Proofs.BlockEnds

/-!
# The changes of indentation in a text

Each change stands at a leaf of its own, so they ascend. Loose braces aside, which may stand in any number and order,
no block is left more often than one is entered, and just as often if nothing is found in the text.
-/

namespace Dofile

/-! ## Steps and what they owe -/

namespace IndentStep

/-- Steps that outdent `n` times more often than they indent at most, whatever their beginning, and exactly so if they
are whole. -/
structure Owes (whole : Prop) (n : Nat) (steps : List IndentStep) : Prop where
  covered : ∀ front, front <+: steps → front.count .outdent ≤ front.count .indent + n
  total : whole → steps.count .outdent = steps.count .indent + n

namespace Owes

variable {whole : Prop} {m n : Nat} {steps more : List IndentStep}

theorem nil : Owes whole 0 [] :=
  ⟨fun front h => by rw [List.prefix_nil.mp h]; exact Nat.le_refl _, fun _ => rfl⟩

theorem outdent : Owes whole 1 [.outdent] := by
  refine ⟨fun front h => ?_, fun _ => rfl⟩
  rcases List.prefix_cons_iff.mp h with rfl | ⟨rest, rfl, hrest⟩
  · exact Nat.zero_le _
  · rw [List.prefix_nil.mp hrest]
    exact Nat.le_refl _

theorem append (h : Owes whole m steps) (h' : Owes whole n more) : Owes whole (m + n) (steps ++ more) := by
  refine ⟨fun front hfront => ?_, fun hwhole => ?_⟩
  · obtain ⟨rest, hrest⟩ := hfront
    rcases List.append_eq_append_iff.mp hrest with ⟨tail, hsteps, -⟩ | ⟨tail, rfl, hmore⟩
    · have hle := h.covered front ⟨tail, hsteps.symm⟩
      omega
    · have hle := h.covered steps (List.prefix_refl steps)
      have hle' := h'.covered tail ⟨rest, hmore.symm⟩
      rw [List.count_append, List.count_append]
      omega
  · have htotal := h.total hwhole
    have htotal' := h'.total hwhole
    rw [List.count_append, List.count_append]
    omega

theorem flatMap {α : Type} {f : α → List IndentStep} {closes : α → Bool} {as : List α}
    (h : ∀ a ∈ as, Owes whole (if closes a then 1 else 0) (f a)) : Owes whole (as.countP closes) (as.flatMap f) := by
  induction as with
  | nil => exact nil
  | cons a as ih =>
    obtain ⟨hfirst, hrest⟩ := List.forall_mem_cons.mp h
    rw [List.countP_cons, Nat.add_comm, List.flatMap_cons]
    exact hfirst.append (ih hrest)

/-- A step inwards pays for one step outwards. -/
theorem indent (h : Owes whole n steps) (hn : n ≤ 1) (hwhole : whole → n = 1) : Owes whole 0 (.indent :: steps) := by
  have hcons : ∀ steps : List IndentStep, (IndentStep.indent :: steps).count .outdent = steps.count .outdent ∧
      (IndentStep.indent :: steps).count .indent = steps.count .indent + 1 :=
    fun steps => ⟨List.count_cons_of_ne (by decide), List.count_cons_self⟩
  refine ⟨fun front hfront => ?_, fun hw => ?_⟩
  · rcases List.prefix_cons_iff.mp hfront with rfl | ⟨rest, rfl, hrest⟩
    · exact Nat.zero_le _
    · have hle := h.covered rest hrest
      rw [(hcons rest).1, (hcons rest).2]
      omega
  · have htotal := h.total hw
    have hone := hwhole hw
    rw [(hcons steps).1, (hcons steps).2]
    omega

end Owes

end IndentStep

/-! ## Steps at elements -/

/-- Of the leaves in a node that are no loose braces only those that end a block make a step. -/
theorem IndentChange.ofLeaf_eq (parent k : Kind) :
    (if ((k == .leftBrace || k == .rightBrace) && some parent != some .mataBlock) = true then none
      else ofLeaf? k (some parent)) = if parent.endsBlock k then some .outdent else none := by
  by_cases hkind : k = .leftBrace ∨ k = .rightBrace ∨ k = .endKeyword
  · rcases hkind with rfl | rfl | rfl
    · by_cases hparent : parent = .mataBlock <;> simp [ofLeaf?, Kind.endsBlock, hparent]
    · by_cases hparent : parent = .mataBlock <;> simp [ofLeaf?, Kind.endsBlock, hparent]
    · simp [ofLeaf?, Kind.endsBlock, or_comm]
  · obtain ⟨hleft, hright, hend⟩ : k ≠ .leftBrace ∧ k ≠ .rightBrace ∧ k ≠ .endKeyword := by simpa using hkind
    have hnone : ofLeaf? k (some parent) = none := by
      unfold ofLeaf?
      split <;> first | contradiction | rfl
    simp [Kind.endsBlock, hleft, hright, hend, hnone]

namespace Place

def isLooseBrace (p : Place) : Bool :=
  (p.kind == .leftBrace || p.kind == .rightBrace) && p.parent?.map kind != some .mataBlock

def blockStep? (p : Place) : Option IndentStep :=
  if p.isLooseBrace then none else (IndentChange.ofElement? p).map IndentChange.step

def changes (p : Place) : List IndentChange := p.elements.filterMap IndentChange.ofElement?

def blockSteps (p : Place) : List IndentStep := p.elements.filterMap blockStep?

variable {p c : Place}

theorem parent_kind (p : Place) : p.parent?.map kind = p.parentKinds.head? := by
  obtain ⟨tree, start, above⟩ := p
  cases above <;> rfl

theorem not_loose (h : p.kind ≠ .leftBrace ∧ p.kind ≠ .rightBrace) : ¬p.isLooseBrace = true := by
  rw [isLooseBrace, beq_eq_false_iff_ne.mpr h.1, beq_eq_false_iff_ne.mpr h.2]
  exact Bool.false_ne_true

theorem blockStep_eq (p : Place) : p.blockStep? = if p.isLooseBrace then none else
    if p.isLeaf then IndentChange.ofLeaf? p.kind p.parentKinds.head? else IndentChange.ofNode? p := by
  rw [blockStep?, IndentChange.ofElement?, Option.map_map]
  congr 1
  exact Option.map_id'

theorem blockStep_leaf (hc : c ∈ p.children) (hleaf : c.isLeaf = true) :
    c.blockStep? = if Tree.endsBlock p.kind c.tree then some .outdent else none := by
  obtain ⟨i, hi⟩ := List.getElem?_of_mem hc
  have hparent : c.parentKinds.head? = some p.kind := by
    rw [parentKinds_of_child hi]
    rfl
  rw [blockStep_eq, isLooseBrace, parent_kind, hparent, if_pos hleaf, Tree.endsBlock,
    show c.tree.isLeaf = true from hleaf, Bool.true_and]
  exact IndentChange.ofLeaf_eq p.kind c.kind

theorem blockStep_node (hnode : p.isLeaf = false) : p.blockStep? = IndentChange.ofNode? p := by
  rw [blockStep_eq, hnode, if_neg Bool.false_ne_true]
  split
  · next hloose =>
    unfold isLooseBrace at hloose
    unfold IndentChange.ofNode?
    split <;> simp_all
  · rfl

theorem ofNode_eq_some {step : IndentStep} (h : IndentChange.ofNode? p = some step) :
    step = .indent ∧ (p.kind = .programDefinition ∨ p.kind = .mataBlock) := by
  unfold IndentChange.ofNode? at h
  split at h
  · next hk => exact ⟨(Option.some.inj h).symm, .inl hk⟩
  · next hk =>
    split at h
    · cases h
    · exact ⟨(Option.some.inj h).symm, .inr hk⟩
  · cases h

theorem changes_eq (p : Place) : p.changes = (IndentChange.ofElement? p).toList ++ p.children.flatMap changes := by
  rw [changes, elements_eq, List.filterMap_cons, List.filterMap_flatMap]
  cases IndentChange.ofElement? p <;> rfl

theorem blockSteps_eq (p : Place) : p.blockSteps = p.blockStep?.toList ++ p.children.flatMap blockSteps := by
  rw [blockSteps, elements_eq, List.filterMap_cons, List.filterMap_flatMap]
  cases p.blockStep? <;> rfl

/-! ## Steps of whole nodes -/

section
variable {parse : Parse} {root : Place} (hcloses : ∀ q ∈ root.nodes, q.ClosesOnce parse)
include hcloses

/-- The steps in a node: what its children outdent too often, the step of the node pays for. -/
theorem owes_of_node : ∀ p ∈ root.elements, p.isLeaf = false →
    IndentStep.Owes (parse.diagnostics = []) 0 p.blockSteps := by
  intro p
  induction p using induct with
  | step p ih =>
    intro hp hnode
    have hchildren : IndentStep.Owes (parse.diagnostics = []) p.tree.closers (p.children.flatMap blockSteps) := by
      rw [Tree.closers, ← map_tree_children_eq, List.countP_map]
      refine .flatMap fun c hc => ?_
      by_cases hleaf : c.isLeaf = true
      · rw [blockSteps, elements_leaf hleaf, List.filterMap_cons, List.filterMap_nil, blockStep_leaf hc hleaf]
        show IndentStep.Owes _ (if Tree.endsBlock p.kind c.tree then 1 else 0) _
        by_cases hends : Tree.endsBlock p.kind c.tree = true
        · rw [if_pos hends, if_pos hends]
          exact .outdent
        · rw [if_neg hends, if_neg hends]
          exact .nil
      · have hnot : Tree.endsBlock p.kind c.tree = false := by
          rw [Tree.endsBlock, show c.tree.isLeaf = false from Bool.eq_false_iff.mpr hleaf, Bool.false_and]
        show IndentStep.Owes _ (if Tree.endsBlock p.kind c.tree then 1 else 0) _
        rw [hnot]
        exact ih c hc (mem_elements_trans hp (mem_elements_of_child hc)) (Bool.eq_false_iff.mpr hleaf)
    obtain ⟨hle, htotal⟩ := hcloses p (mem_nodes_iff.mpr ⟨hp, hnode⟩)
    rw [blockSteps_eq, blockStep_node hnode]
    cases hstep : IndentChange.ofNode? p with
    | none =>
      have hnone : p.tree.closers = 0 := by simpa [hstep] using hle
      rw [hnone] at hchildren
      exact hchildren
    | some step =>
      obtain ⟨rfl, -⟩ := ofNode_eq_some hstep
      rw [hstep] at hle htotal
      exact hchildren.indent hle htotal

end

/-! ## The order of the changes -/

theorem change_of_leaf {change : IndentChange} (hleaf : p.isLeaf = true) (h : IndentChange.ofElement? p = some change) :
    change.offset = p.start ∧ p.kind ≠ .eof := by
  rw [IndentChange.ofElement?, if_pos hleaf, Option.map_eq_some_iff] at h
  obtain ⟨step, hstep, rfl⟩ := h
  refine ⟨rfl, fun hkind => ?_⟩
  rw [hkind] at hstep
  cases hstep

theorem no_change_of_keyword (hleaf : p.isLeaf = true) (hkind : p.kind = .programKeyword ∨ p.kind = .mataKeyword) :
    p.changes = [] := by
  rw [changes, elements_leaf hleaf, List.filterMap_cons, List.filterMap_nil, IndentChange.ofElement?, if_pos hleaf]
  rcases hkind with hkind | hkind <;> rw [hkind] <;> rfl

section
variable {root : Place} (hbegins : ∀ q ∈ root.nodes, q.kind = .programDefinition ∨ q.kind = .mataBlock →
  q.tree.BeginsBlock)
include hbegins

/-- A change at a node stands at its keyword. -/
theorem keyword_of_change {change : IndentChange} (hp : p ∈ root.elements) (hnode : p.isLeaf = false)
    (h : IndentChange.ofElement? p = some change) : change.offset = p.start ∧
      (p.kind = .programDefinition ∨ p.kind = .mataBlock) ∧ ∃ keyword cs, p.children = keyword :: cs ∧
        keyword ∈ root.leaves ∧ keyword.start = p.start ∧
        (keyword.kind = .programKeyword ∨ keyword.kind = .mataKeyword) := by
  rw [IndentChange.ofElement?, hnode, if_neg Bool.false_ne_true, Option.map_eq_some_iff] at h
  obtain ⟨step, hstep, rfl⟩ := h
  have hblock := (ofNode_eq_some hstep).2
  obtain ⟨kind, word, ts, hkind, hchildren⟩ := hbegins p (mem_nodes_iff.mpr ⟨hp, hnode⟩) hblock
  obtain ⟨keyword, hfirst, htree, hstart, hleaf⟩ := first_of_leaf hchildren
  obtain ⟨cs, hcs⟩ : ∃ cs, p.children = keyword :: cs := by
    rw [← List.head?_eq_getElem?] at hfirst
    exact List.head?_eq_some_iff.mp hfirst
  exact ⟨rfl, hblock, keyword, cs, hcs, (leaves_isInfix hp).subset (List.mem_of_mem_head? hleaf), hstart,
    by rwa [Place.kind, htree]⟩

/-- The changes below an element ascend, within its span. -/
theorem sorted_changes (horder : InOrder root.leaves) : ∀ p ∈ root.elements, p.changes.Pairwise (·.offset < ·.offset) ∧
    ∀ change ∈ p.changes, p.start ≤ change.offset ∧ change.offset < p.stop := by
  intro p
  induction p using induct with
  | step p ih =>
    intro hp
    by_cases hleaf : p.isLeaf = true
    · rw [changes, elements_leaf hleaf, List.filterMap_cons, List.filterMap_nil]
      cases hown : IndentChange.ofElement? p with
      | none => exact ⟨.nil, nofun⟩
      | some own =>
        obtain ⟨hstart, hkind⟩ := change_of_leaf hleaf hown
        have hsolid := horder.solid p (mem_leaves_iff.mpr ⟨hp, hleaf⟩) hkind
        exact ⟨List.pairwise_singleton _ _, List.forall_mem_singleton.mpr (by omega)⟩
    have hnode : p.isLeaf = false := Bool.eq_false_iff.mpr hleaf
    have hchild : ∀ c ∈ p.children, c.changes.Pairwise (·.offset < ·.offset) ∧
        ∀ change ∈ c.changes, c.start ≤ change.offset ∧ change.offset < c.stop :=
      fun c hc => ih c hc (mem_elements_trans hp (mem_elements_of_child hc))
    have hpairs := pairwise_children hnode
    have hbelow : (p.children.flatMap changes).Pairwise (·.offset < ·.offset) := by
      refine List.pairwise_flatMap.mpr ⟨fun c hc => (hchild c hc).1, ?_⟩
      refine hpairs.imp_of_mem fun {a b} ha hb hab x hx y hy => ?_
      have hbounds := (hchild a ha).2 x hx
      have hbounds' := (hchild b hb).2 y hy
      omega
    have hinside : ∀ change ∈ p.children.flatMap changes, p.start ≤ change.offset ∧ change.offset < p.stop := by
      intro change hchange
      obtain ⟨c, hc, hchange⟩ := List.mem_flatMap.mp hchange
      have hbounds := (hchild c hc).2 change hchange
      have hwithin := bounds_of_mem_elements (mem_elements_of_child hc)
      omega
    rw [changes_eq]
    cases hown : IndentChange.ofElement? p with
    | none => exact ⟨hbelow, hinside⟩
    | some own =>
      -- the keyword makes no change, and all else stands behind it
      obtain ⟨hstart, -, keyword, cs, hcs, hkeyword, hat, hkind⟩ := keyword_of_change hbegins hp hnode hown
      have hsolid := horder.solid keyword hkeyword (by rcases hkind with hk | hk <;> rw [hk] <;> decide)
      have hwithin := bounds_of_mem_elements (mem_elements_of_child (hcs ▸ List.mem_cons_self : keyword ∈ p.children))
      have hbehind : ∀ change ∈ p.children.flatMap changes, own.offset < change.offset := by
        intro change hchange
        have hnone := no_change_of_keyword (mem_leaves_iff.mp hkeyword).2 hkind
        rw [hcs, List.flatMap_cons, hnone, List.nil_append] at hchange
        obtain ⟨c, hc, hchange⟩ := List.mem_flatMap.mp hchange
        have hbounds := (hchild c (hcs ▸ List.mem_cons_of_mem _ hc)).2 change hchange
        rw [hcs] at hpairs
        have hle := (List.pairwise_cons.mp hpairs).1 c hc
        omega
      exact ⟨.cons hbehind hbelow, List.forall_mem_cons.mpr ⟨by omega, hinside⟩⟩

/-! ## Loose braces by their offsets -/

/-- A change at an element stands where a loose brace does only if the element is that brace. -/
theorem loose_iff (horder : InOrder root.leaves) (hp : p ∈ root.elements) {change : IndentChange}
    (h : IndentChange.ofElement? p = some change) :
    (root.leaves.any fun leaf => leaf.start == change.offset && leaf.isLooseBrace) = p.isLooseBrace := by
  rw [Bool.eq_iff_iff, List.any_eq_true]
  simp only [Bool.and_eq_true, beq_iff_eq]
  by_cases hleaf : p.isLeaf = true
  · have hmem := mem_leaves_iff.mpr ⟨hp, hleaf⟩
    have hat := (change_of_leaf hleaf h).1
    constructor
    · rintro ⟨leaf, hmem', hstart, hloose⟩
      rwa [← horder.eq_of_start hmem' hmem (hstart.trans hat)]
    · exact fun hloose => ⟨p, hmem, hat.symm, hloose⟩
  · -- neither the node nor its keyword is a brace
    obtain ⟨hat, hblock, keyword, _, -, hkeyword, hstart, hkind⟩ :=
      keyword_of_change hbegins hp (Bool.eq_false_iff.mpr hleaf) h
    constructor
    · rintro ⟨leaf, hmem, hstart', hloose⟩
      obtain rfl := horder.eq_of_start hmem hkeyword ((hstart'.trans hat).trans hstart.symm)
      exact absurd hloose (not_loose (by rcases hkind with hk | hk <;> rw [hk] <;> decide))
    · exact fun hloose => absurd hloose (not_loose (by rcases hblock with hk | hk <;> rw [hk] <;> decide))

/-- The steps of the changes that are at no loose brace. -/
theorem map_step_blocks (horder : InOrder root.leaves) :
    (root.changes.filter fun change => !root.leaves.any fun leaf =>
      leaf.start == change.offset && leaf.isLooseBrace).map IndentChange.step = root.blockSteps := by
  rw [changes, List.filter_filterMap, List.map_filterMap]
  refine List.filterMap_congr fun p hp => ?_
  rw [blockStep?]
  cases h : IndentChange.ofElement? p with
  | none => simp
  | some change =>
    have hloose := loose_iff hbegins horder hp h
    cases hbrace : p.isLooseBrace <;> rw [hbrace] at hloose <;> simp [Option.filter, hloose]

end

end Place

namespace Parse

/-- The offsets where the indentation changes ascend. Loose braces aside, lines are outdented no more often than they
were indented before, and just as often in all if nothing is found in the text. -/
theorem indents_cover_outdents (text : List Char) (hsize : byteSize text ≤ maxOffset) :
    let p := ofText text
    let changes := IndentChange.ofTree p.tree
    let blocks := changes.filter fun change => !p.root.leaves.any fun leaf =>
      leaf.start == change.offset && leaf.isLooseBrace
    changes.Pairwise (·.offset < ·.offset) ∧
    (∀ front, front <+: blocks → front.countP (·.step == .outdent) ≤ front.countP (·.step == .indent)) ∧
    (p.diagnostics = [] → blocks.countP (·.step == .outdent) = blocks.countP (·.step == .indent)) := by
  intro p changes blocks
  have horder := inOrder_leaves text hsize
  have hbegins : ∀ q ∈ p.root.nodes, q.kind = .programDefinition ∨ q.kind = .mataBlock → q.tree.BeginsBlock :=
    fun q hq => begins_of_block hsize hq
  have hroot : p.root ∈ p.root.elements := Place.mem_elements_iff.mpr (.inl rfl)
  obtain ⟨items, l, h⟩ := Reading.exists_lines text
  have hnode : p.root.isLeaf = false := (holds_of_lines h hsize).isNode
  have howes := Place.owes_of_node (fun q hq => closesOnce_of_node hsize hq) p.root hroot hnode
  have hsteps : blocks.map IndentChange.step = p.root.blockSteps := Place.map_step_blocks hbegins horder
  have hcount : ∀ (cs : List IndentChange) (step : IndentStep),
      cs.countP (·.step == step) = (cs.map IndentChange.step).count step := by
    intro cs step
    rw [List.count, List.countP_map]
    rfl
  refine ⟨(Place.sorted_changes hbegins horder p.root hroot).1, fun front hfront => ?_, fun hsilent => ?_⟩
  · rw [hcount, hcount]
    exact howes.covered _ (hsteps ▸ hfront.map _)
  · rw [hcount, hcount, hsteps]
    exact howes.total hsilent

theorem indents_cover_outdents_mixed :
    let text := ("\x7d\nprogram p\nforeach x \x7b\nmata \x7b y \x7d\nend\nmata\nz\nend // z\nmata: u\n" ++
      "program q\nmata \x7b").toList
    let p := ofText text
    let changes := IndentChange.ofTree p.tree
    let blocks := changes.filter fun change => !p.root.leaves.any fun leaf =>
      leaf.start == change.offset && leaf.isLooseBrace
    byteSize text ≤ maxOffset ∧
    changes.Pairwise (·.offset < ·.offset) ∧
    (∀ front, front <+: blocks → front.countP (·.step == .outdent) ≤ front.countP (·.step == .indent)) ∧
    (p.diagnostics = [] → blocks.countP (·.step == .outdent) = blocks.countP (·.step == .indent)) := by
  have hsize : byteSize ("\x7d\nprogram p\nforeach x \x7b\nmata \x7b y \x7d\nend\nmata\nz\nend // z\nmata: u\n" ++
      "program q\nmata \x7b").toList ≤ maxOffset := by decide
  exact ⟨hsize, indents_cover_outdents _ hsize⟩

end Parse

end Dofile
