import Dofile.Proofs.DerivationRules
import Dofile.Proofs.Regions
import Dofile.Proofs.Shape

/-!
# Problem nodes and findings

Every problem node stands for one finding, which lies within it, and only names that are
missing are found without a problem node. Unexpected characters are found in the order of
the leaves that they become, each alone in a problem node of its own.
-/

namespace Dofile

namespace Tree

def isError (t : Tree) : Bool := !t.isLeaf && t.kind == .error

def isUnknown (t : Tree) : Bool := t.isLeaf && t.kind == .unknown

def KeepsUnknownAlone (t : Tree) : Prop := ∀ c ∈ t.children, c.kind = .unknown → t = .node .error [c]

end Tree

def Span.Contains (s t : Span) : Prop := s.start ≤ t.start ∧ t.stop ≤ s.stop

/-- Whether a finding comes with a problem node. -/
def Finding.isMarked (f : Finding) : Bool := !Problem.missingNames.contains f.problem

def Finding.isUnexpected (f : Finding) : Bool := f.problem == .unexpectedCharacter

/-- What the problem nodes among some regions and the findings there owe to each other. -/
structure Marked (regions : List (Tree × Span)) (found : List Finding) : Prop where
  count : regions.countP (·.1.isError) = found.countP Finding.isMarked
  holds : ∀ r ∈ regions, r.1.isError = true → ∃ f ∈ found, r.2.Contains f.span
  unknown : (regions.filter (·.1.isUnknown)).map Prod.snd =
    (found.filter Finding.isUnexpected).map Finding.span
  alone : ∀ r ∈ regions, r.1.KeepsUnknownAlone

namespace Marked

variable {rs ss : List (Tree × Span)} {fs gs : List Finding}

theorem nil : Marked [] [] := ⟨rfl, by simp, rfl, by simp⟩

theorem append (h : Marked rs fs) (h' : Marked ss gs) : Marked (rs ++ ss) (fs ++ gs) where
  count := by rw [List.countP_append, List.countP_append, h.count, h'.count]
  holds r hr he := by
    rcases List.mem_append.mp hr with hr | hr
    · obtain ⟨f, hf, hspan⟩ := h.holds r hr he
      exact ⟨f, List.mem_append_left _ hf, hspan⟩
    · obtain ⟨f, hf, hspan⟩ := h'.holds r hr he
      exact ⟨f, List.mem_append_right _ hf, hspan⟩
  unknown := by simp only [List.filter_append, List.map_append, h.unknown, h'.unknown]
  alone r hr := (List.mem_append.mp hr).elim (h.alone r) (h'.alone r)

/-- A region that is neither a problem node nor unknown comes without a finding. -/
theorem region (h : Marked rs fs) {r : Tree × Span} (he : r.1.isError = false) (hu : r.1.isUnknown = false)
    (halone : r.1.KeepsUnknownAlone) : Marked (r :: rs) fs where
  count := by rw [List.countP_cons_of_neg (by simp [he]), h.count]
  holds s hs herror := by
    rcases List.mem_cons.mp hs with rfl | hs
    · rw [he] at herror; cases herror
    · exact h.holds s hs herror
  unknown := by rw [List.filter_cons_of_neg (by simp [hu]), h.unknown]
  alone s hs := by
    rcases List.mem_cons.mp hs with rfl | hs
    · exact halone
    · exact h.alone s hs

theorem missingName {f : Finding} (hf : f.problem ∈ Problem.missingNames) : Marked [] [f] := by
  have hmarked : f.isMarked = false := by simpa [Finding.isMarked] using hf
  have hunexpected : f.isUnexpected = false := by
    have hne : ∀ p ∈ Problem.missingNames, p ≠ .unexpectedCharacter := by decide
    simpa [Finding.isUnexpected] using hne _ hf
  exact ⟨by simp [hmarked], by simp, by simp [hunexpected], by simp⟩

/-- A problem node comes with one finding, which is among those of its content or beside them. -/
theorem error (h : Marked rs (fs ++ gs)) {r : Tree × Span} {f : Finding} (he : r.1.isError = true)
    (hspan : r.2.Contains f.span) (hproblem : f.problem ∉ .unexpectedCharacter :: Problem.missingNames)
    (halone : r.1.KeepsUnknownAlone) : Marked (r :: rs) (fs ++ f :: gs) where
  count := by
    have hcount := h.count
    have hm : f.isMarked = true := by
      simpa [Finding.isMarked] using fun h => hproblem (List.mem_cons_of_mem _ h)
    simp only [List.countP_cons, List.countP_append, he, hm, if_true] at hcount ⊢
    omega
  holds s hs herror := by
    rcases List.mem_cons.mp hs with rfl | hs
    · exact ⟨f, by simp, hspan⟩
    · obtain ⟨g, hg, hspan⟩ := h.holds s hs herror
      refine ⟨g, ?_, hspan⟩
      rw [List.mem_append] at hg ⊢
      exact hg.imp_right (List.mem_cons_of_mem f)
  unknown := by
    have hnot : r.1.isUnknown = false := by
      simp only [Tree.isError, Bool.and_eq_true, Bool.not_eq_true'] at he
      simp [Tree.isUnknown, he.1]
    have hu : f.isUnexpected = false := by
      simpa [Finding.isUnexpected] using fun e : f.problem = _ => hproblem (e ▸ List.mem_cons_self)
    rw [List.filter_cons_of_neg (by simp [hnot]), h.unknown, List.filter_append, List.filter_append,
      List.filter_cons_of_neg (by simp [hu])]
  alone s hs := by
    rcases List.mem_cons.mp hs with rfl | hs
    · exact halone
    · exact h.alone s hs

end Marked

namespace Tree

theorem keepsUnknownAlone_leaf (kind : Kind) (text : List Char) : (leaf kind text).KeepsUnknownAlone :=
  fun _ hc => by cases hc

theorem keepsUnknownAlone_waiting {items : List Item} (h : ∀ t ∈ Item.trees items, t.kind ≠ .unknown)
    (kind : Kind) :
    (node kind (Script.waiting (Item.scriptsAll items))).KeepsUnknownAlone := by
  intro c hc hu
  rcases Script.mem_waiting hc with hc | ⟨blanks, rfl⟩
  · exact absurd hu (h c hc)
  · cases hu

end Tree

structure Accounted (l : Lexer) (items : List Item) (m : Lexer) : Prop where
  account : Account l items m
  known : ∀ t ∈ Item.trees items, t.kind ≠ .unknown
  marked : Marked (Item.regions l items) (Item.findingsAll items)

namespace Accounted

variable {l m m' : Lexer} {is js : List Item}

theorem append (h : Accounted l is m) (h' : Accounted m js m') : Accounted l (is ++ js) m' where
  account := h.account.append h'.account
  known := Item.forall_trees_append h.known h'.known
  marked := by
    rw [Item.regions_append h.account, Item.findingsAll_append]
    exact h.marked.append h'.marked

theorem nil (l : Lexer) : Accounted l [] l := ⟨.skip l, by simp [Item.trees, Item.scriptsAll], .nil⟩

theorem relex (h : Accounted l is m) (mode : Mode) : Accounted l is (m.relex mode) :=
  ⟨by simpa using h.account.append (.relex m mode), h.known, h.marked⟩

theorem taken {kind : Kind} (h : Account l [.token l kind] m) (hw : kind ≠ .whitespace)
    (hu : kind ≠ .unknown) :
    Accounted l [.token l kind] m where
  account := h
  known t ht := by
    rw [Item.trees_token, List.mem_singleton] at ht
    rwa [ht]
  marked := by
    rw [Item.regions_token l hw]
    exact Marked.nil.region rfl (by simp [Tree.isUnknown, Tree.kind, hu]) (Tree.keepsUnknownAlone_leaf _ _)

theorem item (he : l.kind ≠ .eof) (hu : l.kind ≠ .unknown) (mode : Mode) :
    Accounted l [l.item] (l.next mode) :=
  taken (.take he mode) l.kind_ne_whitespace hu

theorem missingName (l : Lexer) {problem : Problem} (hp : problem ∈ Problem.missingNames) :
    Accounted l [.found ⟨problem, l.ahead.span⟩] l :=
  ⟨.found l (Nat.le_add_right ..), by simp [Item.trees, Item.scriptsAll, Item.scripts], .missingName hp⟩

theorem known_node {kind : Kind} (hk : kind.isNode = true) :
    ∀ t ∈ Item.trees [.node kind is], t.kind ≠ .unknown := by
  intro t ht hu
  rw [Item.trees_node, List.mem_singleton] at ht
  rw [ht] at hu
  rw [show kind = .unknown from hu] at hk
  cases hk

theorem node (h : Accounted l is m) {kind : Kind} (hk : kind.isNode = true) (he : kind ≠ .error) :
    Accounted l [.node kind is] m where
  account := .node hk h.account
  known := known_node hk
  marked := by
    simp only [Item.findingsAll, Item.findings, List.append_nil]
    rw [Item.regions_node h.account (ne_whitespace_of_isNode hk)]
    exact h.marked.region (by simp [Tree.isError, Tree.kind, he]) rfl
      (Tree.keepsUnknownAlone_waiting h.known kind)

section
variable (h : Accounted l is m) {f : Finding} (hf : f.span.start ≤ f.span.stop)
  (hspan : Span.Contains ⟨Item.startOf l is, m.offset⟩ f.span)
  (hproblem : f.problem ∉ .unexpectedCharacter :: Problem.missingNames)
include h hf hspan hproblem

theorem errorNode : Accounted l [.node .error (.found f :: is)] m := by
  have hitems : Account l (.found f :: is) m := (Account.found l hf).append h.account
  have hfound : Item.findingsAll [.node .error (.found f :: is)] = [] ++ f :: Item.findingsAll is := by
    simp [Item.findingsAll, Item.findings]
  refine ⟨.node Kind.isNode_error hitems, known_node Kind.isNode_error, ?_⟩
  rw [Item.regions_node hitems (by decide), hfound]
  exact Marked.error h.marked rfl hspan hproblem (Tree.keepsUnknownAlone_waiting h.known .error)

/-- A node that is given up comes with the finding behind its content. -/
theorem enclosed {kind : Kind} (hk : kind.isNode = true) (he : kind ≠ .error) :
    Accounted l [.enclosed kind (is ++ [.found f])] m := by
  have hitems : Account l (is ++ [.found f]) m := h.account.append (.found m hf)
  have hscripts : Item.scriptsAll (is ++ [.found f]) = Item.scriptsAll is := by
    simp [Item.scriptsAll_append, Item.scriptsAll, Item.scripts]
  have hfound : Item.findingsAll [.enclosed kind (is ++ [.found f])] =
      Item.findingsAll [.node kind is] ++ [f] := by
    simp [Item.findingsAll, Item.findings, Item.findingsAll_append]
  have hnode : Item.regions l [.node kind (is ++ [.found f])] = Item.regions l [.node kind is] := by
    simp only [Item.regions, Item.scriptsAll, Item.scripts, hscripts]
  refine ⟨.enclosed hk hitems, fun t ht hu => ?_, ?_⟩
  · rw [Item.trees_enclosed, List.mem_singleton] at ht
    rw [ht] at hu
    cases hu
  · rw [Item.regions_enclosed hitems, hfound, hnode, Item.startOf, hscripts]
    have hinner := (h.node hk he).marked
    rw [← List.append_nil (Item.findingsAll [.node kind is])] at hinner
    refine Marked.error hinner rfl hspan hproblem fun c hc hunknown => ?_
    -- the node in the problem node is its only child, and no leaf
    rw [List.mem_singleton.mp hc] at hunknown
    rw [show kind = .unknown from hunknown] at hk
    cases hk

end

/-- An unexpected character is found where its leaf is, in a problem node of its own. -/
theorem unknown (h : l.kind = .unknown) (mode : Mode) :
    Accounted l [.node .error [.found ⟨.unexpectedCharacter, l.ahead.span⟩, l.item]] (l.next mode) := by
  have hitems : Account l [.found ⟨.unexpectedCharacter, l.ahead.span⟩, l.item] (l.next mode) :=
    (Account.found l (Nat.le_add_right ..)).append (.take (by rw [h]; decide) mode)
  have hleaf : Item.regions l [.found ⟨.unexpectedCharacter, l.ahead.span⟩, l.item] =
      [(.leaf .unknown l.ahead.text, l.ahead.span)] := by
    have htoken := Item.regions_token l l.kind_ne_whitespace
    rw [h] at htoken
    rw [← htoken, Lexer.item, h]
    rfl
  refine ⟨.node Kind.isNode_error hitems, known_node Kind.isNode_error, ?_⟩
  rw [Item.regions_node hitems (by decide), hleaf]
  have hspan : Span.Contains ⟨l.ahead.start, (l.next mode).offset⟩ l.ahead.span :=
    ⟨Nat.le_refl _, Nat.le_refl _⟩
  refine ⟨rfl, fun r hr he => ?_, rfl, fun r hr c hc hunknown => ?_⟩
  · rcases List.mem_cons.mp hr with rfl | hr
    · exact ⟨_, List.mem_singleton_self _, hspan⟩
    · rw [List.mem_singleton.mp hr] at he
      cases he
  · rcases List.mem_cons.mp hr with rfl | hr
    · rw [List.mem_singleton.mp hc]
      rfl
    · rw [List.mem_singleton.mp hr] at hc
      cases hc

end Accounted

namespace Construct

theorem kind_ne_error (q : Construct) : q.kind ≠ .error := by
  rcases q with _ | ⟨family, _⟩
  · decide
  · cases family <;> simp [kind, Family.kindAt, Kind.localMacroAt, Kind.compoundStringAt]

theorem delimiters_ne_unknown (q : Construct) : q.opener ≠ .unknown ∧ q.closer ≠ .unknown := by
  rcases q with _ | ⟨family, _⟩
  · decide
  · cases family <;> simp [opener, closer, Family.opener, Family.closer]

theorem problem_not_mem (q : Construct) : q.problem ∉ .unexpectedCharacter :: Problem.missingNames := by
  rcases q with _ | ⟨family, _⟩
  · decide
  · cases family <;> simp [problem, Family.problem, Problem.missingNames]

end Construct

namespace Derivation

open Reading (bracedName mode_of_braces start_le_of_braces)

variable {outer : Setting} {l l' : Lexer} {items : List Item}

theorem startOf_eq (h : Derivation outer l items l') (hmoves : l'.rest.length < l.rest.length) :
    Item.startOf l items = l.ahead.start ∧ l.ahead.stop ≤ l'.offset := by
  rcases h.first with ⟨-, rfl⟩ | ⟨s, ss, hs, hlead, hstop⟩
  · exact absurd hmoves (Nat.lt_irrefl _)
  · refine ⟨?_, hstop⟩
    rw [Item.startOf, hs, Script.leadAll, hlead]
    rfl

theorem accounted_bracedName {m : Lexer} {is : List Item} (h : bracedName.leads l is m) :
    Accounted l is m := by
  rcases h with ⟨hk, he, rfl, rfl⟩ | ⟨-, ⟨-, rfl, rfl⟩ | ⟨-, rfl, rfl⟩⟩
  · exact .item he (by rw [hk]; decide) _
  · exact .missingName _ (by decide)
  · exact .nil _

theorem accounted (h : Derivation outer l items l') : Accounted l items l' := by
  have hordered : ∀ l : Lexer, l.ahead.span.start ≤ l.ahead.span.stop := fun _ => Nat.le_add_right ..
  have hkind : ∀ {l : Lexer} {kind : Kind} (mode : Mode), l.kind = kind → kind ≠ .eof → kind ≠ .unknown →
      Accounted l [l.item] (l.next mode) := fun mode hl he hu => .item (hl ▸ he) (hl ▸ hu) mode
  have hbraces : ∀ {l b : Lexer}, l.kind = .dollar → b = l.next .globalMacro → b.kind = .leftBrace →
      Accounted l [l.item, b.item] (b.next .globalMacro) := by
    intro l b hl hb hbrace
    subst hb
    exact (hkind _ hl (by decide) (by decide)).append (hkind _ hbrace (by decide) (by decide))
  induction h with
  | nil => exact .nil _
  | append _ _ ih ih' => exact ih.append ih'
  | token h => exact .item (Setting.Takes.ne_eof h) (Setting.Takes.ne_unknown h) _
  | word h hk mode =>
    exact .taken (.word h hk mode) (Kind.ne_whitespace_of_mem_wordLabels hk)
      ((show ∀ k ∈ Kind.wordLabels, k ≠ .unknown by decide) _ hk)
  | missingName l hp => exact .missingName l (Problem.mem_missingNames hp)
  | node hk _ _ _ ih =>
    exact ih.node (Kind.isNode_of_mem_lineNodes hk) ((show ∀ k ∈ Kind.lineNodes, k ≠ .error by decide) _ hk)
  | @problem l _ _ problem hp h hmoves ih =>
    obtain ⟨hstart, hstop⟩ := h.startOf_eq hmoves
    exact ih.errorNode (hordered l) ⟨Nat.le_of_eq hstart, hstop⟩
      ((show ∀ p ∈ Problem.ofLine, p ∉ .unexpectedCharacter :: Problem.missingNames by decide) _ hp)
  | unknown h => exact .unknown h _
  | @openComment l h =>
    have htoken := hkind .statement h.1 (by decide) (by decide)
    exact htoken.errorNode (hordered l) ⟨Nat.le_refl _, Nat.le_refl _⟩
      (show .unterminatedBlockComment ∉ .unexpectedCharacter :: Problem.missingNames by decide)
  | @openBlock l m _ _ kind problem hk h hmoves hl' _ ih =>
    obtain ⟨hstart, hstop⟩ := h.startOf_eq hmoves
    have hblocks : ∀ b ∈ Problem.openBlocks, b.1.isNode = true ∧ b.1 ≠ .error ∧
        b.2 ∉ .unexpectedCharacter :: Problem.missingNames := by decide
    obtain ⟨hnode, he, hproblem⟩ := hblocks _ hk
    have hblock := ih.enclosed (f := ⟨problem, l.ahead.span⟩) (hordered l) ⟨Nat.le_of_eq hstart, hstop⟩
      hproblem hnode he
    rcases hl' with rfl | rfl
    · exact hblock
    · exact hblock.relex _
  | plainMacro hl hm hname =>
    subst hm
    exact ((hkind _ hl (by decide) (by decide)).append (hkind _ hname (by decide) (by decide))).node
      (by decide) (by decide)
  | bracedMacro hl hb hbrace hname hm =>
    exact (((hbraces hl hb hbrace).append (accounted_bracedName hname)).append
      (hkind _ hm (by decide) (by decide))).node (by decide) (by decide)
  | @openMacro outer l b m is hl hb hbrace hname hm =>
    -- no blanks are passed over in a macro reference, so the finding ends where its node does
    have hstop : m.ahead.start ≤ m.offset := by rw [Lexer.start_eq_offset (by rw [mode_of_braces hname]; rfl)]
    have hproblem : .unterminatedGlobalMacro ∉ Problem.unexpectedCharacter :: Problem.missingNames := by
      decide
    exact (((hbraces hl hb hbrace).append (accounted_bracedName hname)).enclosed
      (f := ⟨.unterminatedGlobalMacro, ⟨l.ahead.start, m.ahead.start⟩⟩) (start_le_of_braces hb hname)
      ⟨Nat.le_refl _, hstop⟩ hproblem (by decide) (by decide)).relex _
  | @closed _ q _ _ _ hq hl _ hm ih =>
    exact (((hkind _ hl q.opener_ne_eof q.delimiters_ne_unknown.1).append ih).append
      (hkind _ hm q.closer_ne_eof q.delimiters_ne_unknown.2)).node q.isNode_kind q.kind_ne_error
  | @unclosed _ q l m _ hq hl h hm ih =>
    have hcontent := (hkind q.mode hl q.opener_ne_eof q.delimiters_ne_unknown.1).append ih
    exact (hcontent.enclosed (f := ⟨q.problem, l.ahead.span⟩) (hordered l) ⟨Nat.le_refl _, h.offset_le⟩
      q.problem_not_mem q.isNode_kind q.kind_ne_error).relex _

end Derivation

/-! ## The whole text -/

namespace Parse

def missingNameMessages : List String :=
  ["expected a program name", "expected a macro name", "expected at least one name",
  "expected a global macro name"]

theorem isMarked_eq (f : Finding) : f.isMarked = !missingNameMessages.contains f.diagnostic.message := by
  have hproblem : ∀ p : Problem,
      (!Problem.missingNames.contains p) = !missingNameMessages.contains p.message := by
    intro p
    cases p <;> decide
  exact hproblem f.problem

theorem isUnexpected_eq (f : Finding) : f.isUnexpected = (f.diagnostic.category == .lexical) := by
  have hproblem : ∀ p : Problem, (p == .unexpectedCharacter) = (p.category == .lexical) := by
    intro p
    cases p <;> rfl
  exact hproblem f.problem

theorem marked_of_lines {text : List Char} {items : List Item} {l : Lexer}
    (h : (Reading.lines text.length).leads (.ofText text) items l) (hsize : byteSize text ≤ maxOffset) :
    Marked ((ofText text).root.parts.filter (·.1.kind != .whitespace)) (Item.findingsAll items) := by
  have hitems : Accounted (.ofText text) items l := (Reading.derives_lines _ trivial h).accounted
  have hlast : Marked [(.leaf .eof [], l.ahead.span)] [] :=
    Marked.nil.region rfl rfl (Tree.keepsUnknownAlone_leaf _ _)
  have hall := hitems.marked.append hlast
  rw [List.append_nil] at hall
  have hroot : (ofText text).root.tree = .node .sourceFile
      (Script.forest (Item.scriptsAll (fileItems items l))) := by
    rw [root, Place.ofRoot, ofText_eq h hsize]
  have hkind : l.kind = .eof := kind_of_lines h
  have halone : (ofText text).root.tree.KeepsUnknownAlone := by
    intro c hc hu
    rw [hroot] at hc
    rcases Script.mem_forest hc with hc | ⟨blanks, rfl⟩
    · rw [fileItems, Item.scriptsAll_append, List.map_append, List.mem_append] at hc
      rcases hc with hc | hc
      · exact absurd hu (hitems.known c hc)
      · rw [List.mem_singleton.mp hc] at hu
        rw [show l.kind = .unknown from hu] at hkind
        cases hkind
    · cases hu
  rw [regions_root h hsize]
  exact hall.region (by rw [Place.region, hroot]; rfl) (by rw [Place.region, hroot]; rfl) halone

section
variable {root : Place} {found : List Finding}
  (h : Marked (root.parts.filter (·.1.kind != .whitespace)) found)
include h

theorem length_errors : (root.nodes.filter (·.kind == .error)).length = found.countP Finding.isMarked := by
  rw [← h.count, ← List.countP_eq_length_filter, List.countP_filter]
  have hregion : root.nodes.countP (·.kind == .error) =
      (root.nodes.map Place.region).countP (·.1.kind == .error) := by
    rw [List.countP_map]
    rfl
  rw [hregion, Place.map_region_nodes, List.countP_filter]
  refine List.countP_congr fun r _ => ?_
  cases hleaf : r.1.isLeaf <;> by_cases hkind : r.1.kind = .error <;> simp [Tree.isError, hleaf, hkind]

theorem exists_of_error {e : Place} (he : e ∈ root.nodes) (hkind : e.kind = .error) :
    ∃ f ∈ found, e.span.Contains f.span := by
  have hmem : e.region ∈ root.parts.filter (!·.1.isLeaf) := by
    rw [← Place.map_region_nodes]
    exact List.mem_map_of_mem he
  obtain ⟨hparts, hnode⟩ := List.mem_filter.mp hmem
  have hkind : e.region.1.kind = .error := hkind
  refine h.holds e.region (List.mem_filter.mpr ⟨hparts, by simp [hkind]⟩) ?_
  simpa [Tree.isError, hkind] using hnode

theorem spans_unknown :
    (root.leaves.filter (·.kind == .unknown)).map Place.span =
      (found.filter Finding.isUnexpected).map Finding.span := by
  have hregion : (root.leaves.filter (·.kind == .unknown)).map Place.span =
      ((root.leaves.map Place.region).filter (·.1.kind == .unknown)).map Prod.snd := by
    rw [List.filter_map, List.map_map]
    rfl
  rw [← h.unknown, hregion, Place.map_region_leaves, List.filter_filter, List.filter_filter]
  refine congrArg (List.map Prod.snd) (List.filter_congr fun r _ => ?_)
  cases hleaf : r.1.isLeaf <;> by_cases hkind : r.1.kind = .unknown <;> simp [Tree.isUnknown, hleaf, hkind]

theorem alone_of_unknown (hroot : root.isLeaf = false) (hnodes : ∀ e ∈ root.nodes, e.kind ≠ .whitespace)
    {leaf : Place} (hleaf : leaf ∈ root.leaves)
    (hkind : leaf.kind = .unknown) : ∃ e ∈ root.nodes, e.kind = .error ∧ e.children = [leaf] := by
  obtain ⟨hmem, hisleaf⟩ := Place.mem_leaves_iff.mp hleaf
  rcases Place.eq_or_child hmem with rfl | ⟨e, he, i, hi⟩
  · rw [hroot] at hisleaf; cases hisleaf
  · have hregion : e.region ∈ root.parts.filter (!·.1.isLeaf) := by
      rw [← Place.map_region_nodes]
      exact List.mem_map_of_mem he
    have hsolid : (e.region.1.kind != .whitespace) = true := bne_iff_ne.mpr (hnodes e he)
    have hchild : leaf.tree ∈ e.tree.children := by
      rw [← Place.map_tree_children_eq]
      exact List.mem_map_of_mem (List.mem_of_getElem? hi)
    have htree : e.tree = .node .error [leaf.tree] :=
      h.alone e.region (List.mem_filter.mpr ⟨(List.mem_filter.mp hregion).1, hsolid⟩) leaf.tree hchild hkind
    exact ⟨e, he, by rw [Place.kind, htree]; rfl,
      Place.children_eq_singleton (List.mem_of_getElem? hi) (by rw [htree]; rfl)⟩

end

/-- Problem nodes and diagnostics match: each problem node stands for one diagnostic that is not about a
missing name, and holds one. Lexical diagnostics are the unknown leaves in order, each alone in its problem node. -/
theorem problem_nodes_match (text : List Char) (hsize : byteSize text ≤ maxOffset) :
    let p := ofText text
    (p.root.nodes.filter (·.kind == .error)).length =
        (p.diagnostics.filter (!missingNameMessages.contains ·.message)).length ∧
      (∀ e ∈ p.root.nodes, e.kind = .error → ∃ d ∈ p.diagnostics, e.span.Contains d.span) ∧
      (p.diagnostics.filter (·.category == .lexical)).map Diagnostic.span =
        (p.root.leaves.filter (·.kind == .unknown)).map Place.span ∧
      ∀ leaf ∈ p.root.leaves, leaf.kind = .unknown →
        ∃ e ∈ p.root.nodes, e.kind = .error ∧ e.children = [leaf] := by
  obtain ⟨items, l, h⟩ := Reading.exists_lines text
  intro p
  have hmarked := marked_of_lines h hsize
  have hfound : p.findings = Item.findingsAll items := by
    rw [show p = ofText text from rfl, ofText_eq h hsize]
  rw [← hfound] at hmarked
  have hroot : p.root.tree = .node .sourceFile (Script.forest (Item.scriptsAll (fileItems items l))) := by
    rw [show p.root = (ofText text).root from rfl, root, Place.ofRoot, ofText_eq h hsize]
  have hshaped : ∀ e ∈ p.root.elements, e.tree.All Tree.IsShaped :=
    Place.all_elements (by rw [hroot]; exact shaped_of_lines h)
  have hnodes : ∀ e ∈ p.root.nodes, e.kind ≠ .whitespace := by
    intro e he
    obtain ⟨hmem, hnode⟩ := Place.mem_nodes_iff.mp he
    rw [Typed.isLeaf_eq (hshaped e hmem).self, Bool.not_eq_false'] at hnode
    exact ne_whitespace_of_isNode hnode
  refine ⟨?_, ?_, ?_, fun leaf hleaf => ?_⟩
  · rw [length_errors hmarked, diagnostics, List.filter_map, List.length_map, List.countP_eq_length_filter]
    exact congrArg List.length (List.filter_congr fun f _ => isMarked_eq f)
  · intro e he hkind
    obtain ⟨f, hf, hspan⟩ := exists_of_error hmarked he hkind
    exact ⟨f.diagnostic, List.mem_map_of_mem hf, hspan⟩
  · rw [spans_unknown hmarked, diagnostics, List.filter_map, List.map_map]
    exact congrArg (List.map _) (List.filter_congr fun f _ => (isUnexpected_eq f).symm)
  · exact alone_of_unknown hmarked (by rw [Place.isLeaf, hroot]; rfl) hnodes hleaf

theorem problem_nodes_match_mixed :
    let text := "program\n\x0bdisplay `\"a $\x7bb\nend\n".toList
    let p := ofText text
    byteSize text ≤ maxOffset ∧
      (p.root.nodes.filter (·.kind == .error)).length =
        (p.diagnostics.filter (!missingNameMessages.contains ·.message)).length ∧
      (∀ e ∈ p.root.nodes, e.kind = .error → ∃ d ∈ p.diagnostics, e.span.Contains d.span) ∧
      (p.diagnostics.filter (·.category == .lexical)).map Diagnostic.span =
        (p.root.leaves.filter (·.kind == .unknown)).map Place.span ∧
      ∀ leaf ∈ p.root.leaves, leaf.kind = .unknown →
        ∃ e ∈ p.root.nodes, e.kind = .error ∧ e.children = [leaf] := by
  have hsize : byteSize "program\n\x0bdisplay `\"a $\x7bb\nend\n".toList ≤ maxOffset := by decide
  exact ⟨hsize, problem_nodes_match _ hsize⟩

end Parse

end Dofile
