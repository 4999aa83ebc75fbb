import Dofile.Proofs.DerivationRules
import Dofile.Proofs.OneLine
import Dofile.Proofs.Shape

/-!
# Strings and macro references in a tree

`Nests` says which trees stand in a setting: it is the grammar of strings and macro references,
with their depths and with the problem nodes around those that are given up. Whatever is derived
nests, so every node of a parse does, and the kinds of its ancestors tell its setting.
-/

namespace Dofile

def Kind.isDelimited : Kind → Bool
  | .doubleString | .compoundString _ | .localMacro _ | .globalMacro => true
  | _ => false

def Kind.delimitedLeaves : List Kind :=
  [.doubleQuote, .escapedQuote, .stringEscape, .stringText, .compoundOpen, .compoundClose, .compoundText,
    .backtick, .quote, .ident, .number, .macroText, .dollar, .leftBrace, .rightBrace]

def Kind.references : Bool → List (List Kind)
  | true => [[.dollar, .ident], [.dollar, .leftBrace, .rightBrace], [.dollar, .leftBrace, .ident, .rightBrace]]
  | false => [[.dollar, .leftBrace], [.dollar, .leftBrace, .ident]]

def Construct.closers (q : Construct) : Bool → List Kind
  | true => [q.closer]
  | false => []

namespace Tree

def IsToken (kind : Kind) (t : Tree) : Prop := ∃ text, t = .leaf kind text ∧ OneLine text

/-- Trees that stand in a setting. Those that are not complete lack what closes them. -/
inductive Nests : Bool → Setting → Tree → Prop where
  | leaf {kind : Kind} {text : List Char} (hk : kind.isNode = false) (h : kind ≠ .dollar) :
    Nests true .line (.leaf kind text)
  | node {kind : Kind} {ts : List Tree} (hk : kind.isDelimited = false) (h : ∀ t ∈ ts, Nests true .line t) :
    Nests true .line (.node kind ts)
  | token {q : Construct} {kind : Kind} {t : Tree} (hk : kind ∈ q.tokens) (h : t.IsToken kind) :
    Nests true (.within q) t
  | reference {complete : Bool} {outer : Setting} {kinds : List Kind} {ts : List Tree}
    (hk : kinds ∈ Kind.references complete) (h : List.Forall₂ IsToken kinds ts) :
    Nests complete outer (.node .globalMacro ts)
  | construct {complete : Bool} {outer : Setting} {q : Construct} {o : Tree} {ts cs : List Tree}
    (hq : outer.Opens q) (ho : o.IsToken q.opener) (h : ∀ t ∈ ts, Nests true (.within q) t)
    (hc : List.Forall₂ IsToken (q.closers complete) cs) : Nests complete outer (.node q.kind (o :: (ts ++ cs)))
  | givenUp {outer : Setting} {t : Tree} (h : Nests false outer t) : Nests true outer (.node .error [t])

end Tree

/-! ## Derivations nest -/

/-- One construct of each sort. Its depth says nothing of the tokens in it. -/
def Construct.sorts : List Construct := [doubleString, nested .localMacro 1, nested .compoundString 1]

theorem Construct.exists_sort (q : Construct) : ∃ s ∈ sorts, s.mode = q.mode ∧ s.opener = q.opener ∧
    s.closer = q.closer ∧ s.tokens = q.tokens := by
  rcases q with _ | ⟨family, _⟩
  · exact ⟨doubleString, by simp [sorts], rfl, rfl, rfl, rfl⟩
  · exact ⟨nested family 1, by cases family <;> simp [sorts], rfl, rfl, rfl, by cases family <;> rfl⟩

theorem Construct.skipsBlanks_mode (q : Construct) : q.mode.skipsBlanks = false := by
  obtain ⟨s, hs, hmode, -⟩ := q.exists_sort
  rw [← hmode]
  exact (show ∀ s ∈ sorts, s.mode.skipsBlanks = false by decide) s hs

namespace Lexer

theorem leading_of_skipsBlanks {l : Lexer} (h : l.mode.skipsBlanks = false) : l.leading = [] := by simp [leading, h]

theorem leading_of_keeps {q : Construct} {l : Lexer} (h : (Setting.within q).Keeps l.mode) : l.leading = [] :=
  leading_of_skipsBlanks (by rw [show l.mode = q.mode from h, q.skipsBlanks_mode])

theorem isToken {l : Lexer} {kind : Kind} (h : l.kind = kind) (hk : kind ∉ Kind.acrossLines) :
    (Tree.leaf l.kind l.ahead.text).IsToken kind :=
  ⟨_, by rw [h], oneLine_text (h ▸ hk)⟩

end Lexer

theorem Construct.not_acrossLines (q : Construct) :
    q.opener ∉ Kind.acrossLines ∧ q.closer ∉ Kind.acrossLines ∧ ∀ k ∈ q.tokens, k ∉ Kind.acrossLines := by
  obtain ⟨s, hs, -, ho, hc, ht⟩ := q.exists_sort
  rw [← ho, ← hc, ← ht]
  exact (show ∀ s ∈ sorts, s.opener ∉ Kind.acrossLines ∧ s.closer ∉ Kind.acrossLines ∧
    ∀ k ∈ s.tokens, k ∉ Kind.acrossLines by decide) s hs

namespace Script

/-- Scripts without blanks before them are trees in a row. -/
theorem forest_of_adjacent {ss : List Script} (h : ∀ s ∈ ss, s.lead = []) : forest ss = ss.map tree := by
  induction ss with
  | nil => rfl
  | cons s ss ih =>
    obtain ⟨hs, hss⟩ := List.forall_mem_cons.mp h
    rw [forest, hs, ih hss]
    rfl

theorem waiting_of_adjacent {s : Script} {ss : List Script} (h : ∀ s ∈ ss, s.lead = []) :
    waiting (s :: ss) = s.tree :: ss.map tree := by rw [waiting, forest_of_adjacent h]

end Script

namespace Item

def Adjacent (items : List Item) : Prop := ∀ s ∈ scriptsAll items, s.lead = []

theorem adjacent_nil : Adjacent [] := fun _ hs => by cases hs

theorem Adjacent.append {is js : List Item} (h : Adjacent is) (h' : Adjacent js) : Adjacent (is ++ js) := by
  intro s hs
  rw [scriptsAll_append, List.mem_append] at hs
  exact hs.elim (h s) (h' s)

theorem adjacent_token {l : Lexer} (h : l.leading = []) (kind : Kind) : Adjacent [.token l kind] :=
  List.forall_mem_singleton.mpr h

theorem adjacent_found (f : Finding) : Adjacent [.found f] := fun _ hs => by cases hs

theorem adjacent_item {l : Lexer} (h : l.leading = []) : Adjacent [l.item] := adjacent_token h l.kind

theorem adjacent_node {l : Lexer} (h : l.leading = []) (kind : Kind) (is : List Item) :
    Adjacent [.node kind (l.item :: is)] := List.forall_mem_singleton.mpr h

theorem adjacent_enclosed {l : Lexer} (h : l.leading = []) (kind : Kind) (is : List Item) :
    Adjacent [.enclosed kind (l.item :: is)] := List.forall_mem_singleton.mpr h

/-- The trees in a node that begins with a token, if nothing but that token has blanks before it. -/
theorem waiting_item {l : Lexer} {is : List Item} (h : Adjacent is) :
    Script.waiting (scriptsAll (l.item :: is)) = .leaf l.kind l.ahead.text :: trees is :=
  Script.waiting_of_adjacent h

end Item

namespace Derivation

open Item (Adjacent adjacent_nil adjacent_item adjacent_node adjacent_enclosed)

variable {outer : Setting} {l m l' : Lexer} {is items : List Item}

theorem keeps (h : Derivation outer l items l') (hl : outer.Keeps l.mode) : outer.Keeps l'.mode := by
  have hmode : ∀ outer : Setting, outer.Keeps outer.mode := by
    rintro (_ | q)
    · trivial
    · rfl
  induction h with
  | nil | word | missingName | node | problem | unknown | openComment | openBlock => exact hl
  | append _ _ ih ih' => exact ih' (ih hl)
  | token _ hmode => exact hmode
  | plainMacro | bracedMacro | openMacro | closed | unclosed => exact hmode _

theorem adjacent {q : Construct} (h : Derivation (.within q) l items l') (hl : (Setting.within q).Keeps l.mode) :
    Adjacent items := by
  generalize hs : Setting.within q = outer at h hl
  induction h with
  | nil => exact adjacent_nil
  | append h _ ih ih' => exact (ih hs hl).append (ih' hs (h.keeps hl))
  | token => exact adjacent_item (by subst hs; exact Lexer.leading_of_keeps hl)
  | word | missingName | node | problem | unknown | openComment | openBlock => cases hs
  | plainMacro | bracedMacro | closed => exact adjacent_node (by subst hs; exact Lexer.leading_of_keeps hl) _ _
  | openMacro | unclosed => exact adjacent_enclosed (by subst hs; exact Lexer.leading_of_keeps hl) _ _

/-- A name in braces, or none. -/
theorem tokens_bracedName (h : Reading.bracedName.leads l is m) (hl : l.mode = .globalMacro) :
    Adjacent is ∧ ∃ kinds ∈ [[], [.ident]], List.Forall₂ Tree.IsToken kinds (Item.trees is) := by
  rcases h with ⟨hk, -, rfl, -⟩ | ⟨-, ⟨-, rfl, -⟩ | ⟨-, rfl, -⟩⟩
  · exact ⟨adjacent_item (Lexer.leading_of_skipsBlanks (by rw [hl]; rfl)), [.ident], by decide,
      .cons (Lexer.isToken hk (by decide)) .nil⟩
  · exact ⟨Item.adjacent_found _, [], by decide, .nil⟩
  · exact ⟨adjacent_nil, [], by decide, .nil⟩

section
variable {b : Lexer} (hl : l.kind = .dollar) (hb : b = l.next .globalMacro) (hbrace : b.kind = .leftBrace)
  (hname : Reading.bracedName.leads (b.next .globalMacro) is m)
include hl hb hbrace hname

/-- The dollar sign, the brace and the name of a macro reference in braces, with what is behind them. -/
theorem tokens_braces {js : List Item} {ks : List Kind} (hjs : Adjacent js)
    (htokens : List.Forall₂ Tree.IsToken ks (Item.trees js)) : ∃ names ∈ [[], [Kind.ident]],
      List.Forall₂ Tree.IsToken (.dollar :: .leftBrace :: (names ++ ks))
        (Script.waiting (Item.scriptsAll (l.item :: b.item :: is ++ js))) := by
  obtain ⟨hadjacent, names, hnames, hforall⟩ := tokens_bracedName hname rfl
  have hblank : b.leading = [] := Lexer.leading_of_skipsBlanks (by rw [hb]; rfl)
  have hbehind : Adjacent (b.item :: is ++ js) := ((adjacent_item hblank).append hadjacent).append hjs
  refine ⟨names, hnames, ?_⟩
  rw [List.cons_append, Item.waiting_item hbehind, Item.trees_append]
  exact .cons (Lexer.isToken hl (by decide)) (.cons (Lexer.isToken hbrace (by decide)) (List.rel_append hforall htokens))

end

/-- The delimiters of a construct with what is derived within it. -/
theorem nests_construct {complete : Bool} {q : Construct} {tail : List Item} (hq : outer.Opens q)
    (hl : l.kind = q.opener) (h : Derivation (.within q) (l.next q.mode) is m) (hadjacent : Adjacent tail)
    (ih : ∀ t ∈ Item.trees is, Tree.Nests true (.within q) t)
    (htail : List.Forall₂ Tree.IsToken (q.closers complete) (Item.trees tail)) :
    Tree.Nests complete outer (.node q.kind (Script.waiting (Item.scriptsAll (l.item :: is ++ tail)))) := by
  rw [List.cons_append, Item.waiting_item ((h.adjacent rfl).append hadjacent), Item.trees_append]
  exact .construct hq (Lexer.isToken hl q.not_acrossLines.1) ih htail

/-- A macro reference with a brace and no end. -/
theorem nests_openMacro {b : Lexer} (hl : l.kind = .dollar) (hb : b = l.next .globalMacro)
    (hbrace : b.kind = .leftBrace) (hname : Reading.bracedName.leads (b.next .globalMacro) is m) :
    Tree.Nests false outer (.node .globalMacro (Script.waiting (Item.scriptsAll (l.item :: b.item :: is)))) := by
  obtain ⟨names, hnames, htokens⟩ := tokens_braces hl hb hbrace hname adjacent_nil .nil
  rw [List.append_nil, List.append_nil] at htokens
  exact .reference ((show ∀ names ∈ [[], [Kind.ident]],
    .dollar :: .leftBrace :: names ∈ Kind.references false by decide) names hnames) htokens

/-- What is derived in a setting nests in it. -/
theorem nests (h : Derivation outer l items l') (hkeeps : outer.Keeps l.mode) :
    ∀ t ∈ Item.trees items, Tree.Nests true outer t := by
  have hwaiting : ∀ {is : List Item}, (∀ t ∈ Item.trees is, Tree.Nests true .line t) →
      ∀ t ∈ Script.waiting (Item.scriptsAll is), Tree.Nests true .line t :=
    fun h => (Item.spaced_waiting _).forall h fun _ => .leaf rfl (by decide)
  have hnode : ∀ {kind : Kind} {is : List Item}, kind.isDelimited = false →
      (∀ t ∈ Item.trees is, Tree.Nests true .line t) → ∀ t ∈ Item.trees [.node kind is], Tree.Nests true .line t :=
    fun hk h => List.forall_mem_singleton.mpr (.node hk (hwaiting h))
  have hleaf : ∀ {l : Lexer} {kind : Kind}, kind.isNode = false → kind ≠ .dollar →
      ∀ t ∈ Item.trees [.token l kind], Tree.Nests true .line t :=
    fun hk hd => List.forall_mem_singleton.mpr (.leaf hk hd)
  induction h with
  | nil | missingName => exact fun _ ht => by cases ht
  | append h _ ih ih' =>
    rw [Item.trees_append]
    exact List.forall_mem_append.mpr ⟨ih hkeeps, ih' (h.keeps hkeeps)⟩
  | @token outer l h =>
    rcases outer with _ | q
    · exact hleaf l.isNode_kind fun hd => h.1 (by rw [hd]; decide)
    · exact List.forall_mem_singleton.mpr (.token h (Lexer.isToken rfl (q.not_acrossLines.2.2 _ h)))
  | word _ hk =>
    exact hleaf (Kind.isNode_of_mem_wordLabels hk) ((show ∀ k ∈ Kind.wordLabels, k ≠ .dollar by decide) _ hk)
  | node hk _ _ _ ih => exact hnode ((show ∀ k ∈ Kind.lineNodes, k.isDelimited = false by decide) _ hk) (ih hkeeps)
  | problem _ _ _ ih => exact hnode rfl (ih hkeeps)
  | unknown h => exact hnode rfl (hleaf (Lexer.isNode_kind _) (by rw [h]; decide))
  | openComment h => exact hnode rfl (hleaf (Lexer.isNode_kind _) (by rw [h.1]; decide))
  | @openBlock l m l' is kind problem hk h hmoves hl' _ ih =>
    have hplain := (show ∀ b ∈ Problem.openBlocks, b.1.isDelimited = false by decide) _ hk
    rw [Item.trees_givenUp]
    exact List.forall_mem_singleton.mpr (.node rfl (hnode hplain (ih hkeeps)))
  | plainMacro hl hm hname =>
    subst hm
    have hrow : [.dollar, .ident] ∈ Kind.references true := by decide
    refine List.forall_mem_singleton.mpr (.reference hrow ?_)
    rw [Item.waiting_item (adjacent_item (Lexer.leading_of_skipsBlanks rfl))]
    exact .cons (Lexer.isToken hl (by decide)) (.cons (Lexer.isToken hname (by decide)) .nil)
  | bracedMacro hl hb hbrace hname hm =>
    have hblank := Lexer.leading_of_skipsBlanks (by rw [Reading.mode_of_braces hname]; rfl)
    obtain ⟨names, hnames, htokens⟩ := tokens_braces hl hb hbrace hname (adjacent_item hblank)
      (.cons (Lexer.isToken hm (by decide)) .nil)
    exact List.forall_mem_singleton.mpr (.reference ((show ∀ names ∈ [[], [Kind.ident]],
      .dollar :: .leftBrace :: (names ++ [.rightBrace]) ∈ Kind.references true by decide) names hnames) htokens)
  | openMacro hl hb hbrace hname hm =>
    rw [Item.trees_givenUp]
    exact List.forall_mem_singleton.mpr (.givenUp (nests_openMacro hl hb hbrace hname))
  | @closed outer q l m is hq hl h hm ih =>
    have hblank : m.leading = [] := Lexer.leading_of_keeps (h.keeps rfl)
    exact List.forall_mem_singleton.mpr (nests_construct hq hl h (adjacent_item hblank) (ih rfl)
      (.cons (Lexer.isToken hm q.not_acrossLines.2.1) .nil))
  | unclosed hq hl h hm ih =>
    have hconstruct : Tree.Nests false _ _ := nests_construct hq hl h adjacent_nil (ih rfl) .nil
    rw [List.append_nil] at hconstruct
    rw [Item.trees_givenUp]
    exact List.forall_mem_singleton.mpr (.givenUp hconstruct)

end Derivation

/-! ## What nests -/

namespace Tree

def IsInner (t : Tree) : Prop := t.isLeaf = true → t.kind ∈ Kind.delimitedLeaves ∧ OneLine t.text

theorem IsToken.all {kind : Kind} {t : Tree} (h : t.IsToken kind) (hk : kind ∈ Kind.delimitedLeaves) :
    t.All IsInner := by
  obtain ⟨text, rfl, hline⟩ := h
  exact fun _ => ⟨hk, hline⟩

theorem all_of_tokens {kinds : List Kind} {ts : List Tree} (h : List.Forall₂ IsToken kinds ts)
    (hk : ∀ k ∈ kinds, k ∈ Kind.delimitedLeaves) : ∀ t ∈ ts, t.All IsInner := by
  induction h with
  | nil => exact fun _ ht => by cases ht
  | cons h _ ih =>
    obtain ⟨hkind, hk⟩ := List.forall_mem_cons.mp hk
    exact List.forall_mem_cons.mpr ⟨h.all hkind, ih hk⟩

theorem not_mem_tokens {kinds : List Kind} {ts : List Tree} (h : List.Forall₂ IsToken kinds ts) {t : Tree}
    (ht : t.isLeaf = false) : t ∉ ts := by
  induction h with
  | nil => exact List.not_mem_nil
  | cons htoken _ ih =>
    obtain ⟨text, rfl, -⟩ := htoken
    exact fun hmem => (List.mem_cons.mp hmem).elim (fun e => by subst e; cases ht) ih

end Tree

theorem Construct.delimitedLeaves (q : Construct) : q.opener ∈ Kind.delimitedLeaves ∧
    q.closer ∈ Kind.delimitedLeaves ∧ ∀ k ∈ q.tokens, k ∈ Kind.delimitedLeaves := by
  obtain ⟨s, hs, -, ho, hc, ht⟩ := q.exists_sort
  rw [← ho, ← hc, ← ht]
  exact (show ∀ s ∈ sorts, s.opener ∈ Kind.delimitedLeaves ∧ s.closer ∈ Kind.delimitedLeaves ∧
    ∀ k ∈ s.tokens, k ∈ Kind.delimitedLeaves by decide) s hs

theorem Construct.kind_ne_globalMacro (q : Construct) : q.kind ≠ .globalMacro := by
  rcases q with _ | ⟨family, _⟩
  · nofun
  · cases family <;> nofun

theorem Construct.eq_doubleString_of_kind {q : Construct} (h : q.kind = .doubleString) : q = .doubleString := by
  rcases q with _ | ⟨family, _⟩
  · rfl
  · cases family <;> cases h

theorem Construct.isDelimited_kind (q : Construct) : q.kind.isDelimited = true := by
  rcases q with _ | ⟨family, _⟩
  · rfl
  · cases family <;> rfl

theorem Kind.isNode_of_isDelimited {k : Kind} (h : k.isDelimited = true) : k.isNode = true := by
  cases k with
  | doubleString | globalMacro => rfl
  | compoundString label => exact (show ∀ label, (compoundString label).isNode = true by decide) label
  | localMacro label => exact (show ∀ label, (localMacro label).isNode = true by decide) label
  | _ => cases h

/-- What may stand between the delimiters of a string or a macro reference. -/
def Kind.holds : Kind → Kind → Bool
  | doubleString, k => [.stringText, .stringEscape, .escapedQuote, .globalMacro].contains k
  | compoundString _, k =>
    k.isCompoundString || k.isLocalMacro || [.compoundText, .globalMacro, .doubleString].contains k
  | localMacro _, k => k.isLocalMacro || [.ident, .number, .macroText, .globalMacro, .doubleString].contains k
  | _, _ => false

def Kind.Holds (kind : Kind) (t : Tree) : Prop :=
  kind.holds t.kind = true ∨ ∃ u, t = .node .error [u] ∧ kind.holds u.kind = true

namespace Construct

theorem holds_of_tokens {q : Construct} {k : Kind} (h : k ∈ q.tokens) : q.kind.holds k = true := by
  rcases q with _ | ⟨family, _⟩
  · exact (show ∀ k ∈ doubleString.tokens, Kind.doubleString.holds k = true by decide) k h
  · cases family
    · exact (show ∀ k ∈ (nested .localMacro 1).tokens, (Kind.localMacroAt 1).holds k = true by decide) k h
    · exact (show ∀ k ∈ (nested .compoundString 1).tokens, (Kind.compoundStringAt 1).holds k = true by decide) k h

theorem holds_globalMacro (q : Construct) : q.kind.holds .globalMacro = true := by
  rcases q with _ | ⟨family, _⟩
  · rfl
  · cases family <;> rfl

theorem holds_of_opens {q r : Construct} (h : (Setting.within q).Opens r) : q.kind.holds r.kind = true := by
  rcases q with _ | ⟨family, _⟩
  · cases h
  · rcases r with _ | ⟨family', _⟩
    · cases family <;> rfl
    · cases family <;> cases family' <;> first | rfl | cases h

end Construct

namespace Tree.Nests

variable {complete : Bool} {outer : Setting} {t : Tree}

theorem isDelimited (h : Nests false outer t) : t.kind.isDelimited = true := by
  cases h with
  | reference => rfl
  | construct => exact Construct.isDelimited_kind _

theorem holds {q : Construct} (h : Nests complete (.within q) t) : q.kind.Holds t := by
  generalize hs : Setting.within q = outer at h
  induction h with
  | leaf | node => cases hs
  | token hk h =>
    cases hs
    obtain ⟨text, rfl, -⟩ := h
    exact .inl (Construct.holds_of_tokens hk)
  | reference => exact .inl q.holds_globalMacro
  | construct hq => exact .inl (Construct.holds_of_opens (hs ▸ hq))
  | givenUp h ih =>
    refine .inr ⟨_, rfl, (ih hs).resolve_right ?_⟩
    rintro ⟨u, rfl, -⟩
    cases h.isDelimited

/-- What a string or a macro reference is made of. -/
theorem delimited_cases (h : Nests complete outer t) (hk : t.kind.isDelimited = true) :
    (∃ kinds ∈ Kind.references complete, t.kind = .globalMacro ∧ List.Forall₂ IsToken kinds t.children) ∨
      ∃ q o ts cs, outer.Opens q ∧ t.kind = q.kind ∧ t.children = o :: (ts ++ cs) ∧ o.IsToken q.opener ∧
        (∀ u ∈ ts, Nests true (.within q) u) ∧ List.Forall₂ IsToken (q.closers complete) cs := by
  have hleaf : ∀ {kind : Kind}, kind.isNode = false → kind.isDelimited ≠ true :=
    fun hnode h => by rw [Kind.isNode_of_isDelimited h] at hnode; cases hnode
  cases h with
  | leaf hnode => exact absurd hk (hleaf hnode)
  | node hplain => exact absurd hk (Bool.eq_false_iff.mp hplain)
  | @token q _ _ hmem h =>
    obtain ⟨text, rfl, -⟩ := h
    have hinner := (show ∀ k ∈ Kind.delimitedLeaves, k.isNode = false by decide) _ (q.delimitedLeaves.2.2 _ hmem)
    exact absurd hk (hleaf hinner)
  | reference hkinds h => exact .inl ⟨_, hkinds, rfl, h⟩
  | construct hq ho h hc => exact .inr ⟨_, _, _, _, hq, rfl, rfl, ho, h, hc⟩
  | givenUp => cases hk

theorem reference_cases (h : Nests complete outer t) (hk : t.kind = .globalMacro) :
    ∃ kinds ∈ Kind.references complete, List.Forall₂ IsToken kinds t.children := by
  rcases h.delimited_cases (by rw [hk]; rfl) with ⟨kinds, hkinds, -, htokens⟩ | ⟨q, _, _, _, -, hkind, -⟩
  · exact ⟨kinds, hkinds, htokens⟩
  · exact absurd (hkind.symm.trans hk) q.kind_ne_globalMacro

/-- What a string or a macro reference with a closer of its own is made of. -/
theorem construct_cases (h : Nests complete outer t) (hk : t.kind.isDelimited = true) (hne : t.kind ≠ .globalMacro) :
    ∃ q o ts cs, outer.Opens q ∧ t.kind = q.kind ∧ t.children = o :: (ts ++ cs) ∧ o.IsToken q.opener ∧
      (∀ u ∈ ts, Nests true (.within q) u) ∧ List.Forall₂ IsToken (q.closers complete) cs := by
  rcases h.delimited_cases hk with ⟨_, _, hkind, -⟩ | hconstruct
  · exact absurd hkind hne
  · exact hconstruct

variable (h : Nests complete outer t)
include h

/-- All leaves of a string or a macro reference are of its kinds, and none goes past the end of the line. -/
theorem all_inner (hin : outer ≠ .line ∨ t.kind.isDelimited = true) : t.All IsInner := by
  induction h with
  | @leaf kind _ hk =>
    have hnode : kind.isNode = true := Kind.isNode_of_isDelimited (hin.resolve_left fun h => h rfl)
    rw [hk] at hnode
    cases hnode
  | node hk => exact absurd (hin.resolve_left fun h => h rfl) (Bool.eq_false_iff.mp hk)
  | @token q _ _ hk h => exact h.all (q.delimitedLeaves.2.2 _ hk)
  | @reference complete _ kinds _ hk h =>
    have hleaves : ∀ complete, ∀ kinds ∈ Kind.references complete, ∀ k ∈ kinds, k ∈ Kind.delimitedLeaves := by decide
    exact all_node (fun hl => by cases hl) (all_of_tokens h (hleaves complete kinds hk))
  | @construct complete _ q _ _ _ _ ho _ hc ih =>
    have hclosers : ∀ k ∈ q.closers complete, k ∈ Kind.delimitedLeaves := by
      cases complete
      · exact fun _ hk => by cases hk
      · exact List.forall_mem_singleton.mpr q.delimitedLeaves.2.1
    refine all_node (fun hl => by cases hl) (List.forall_mem_cons.mpr ⟨ho.all q.delimitedLeaves.1, ?_⟩)
    exact List.forall_mem_append.mpr ⟨fun t ht => ih t ht (.inl nofun), all_of_tokens hc hclosers⟩
  | givenUp h ih => exact all_node (fun hl => by cases hl) (List.forall_mem_singleton.mpr (ih (.inr h.isDelimited)))

end Tree.Nests

/-! ## Depths -/

def Family.ofKind? : Kind → Option Family
  | .localMacro _ => some .localMacro
  | .compoundString _ => some .compoundString
  | _ => none

/-- How many kinds of a family follow each other at the front of some kinds, problem nodes aside. -/
def Family.runOf (family : Family) (kinds : List Kind) : Nat :=
  ((kinds.filter (· != .error)).takeWhile (Family.ofKind? · == some family)).length

def Setting.depthIn : Setting → Family → Nat
  | within (.nested f depth), family => if f = family then depth else 0
  | _, _ => 0

namespace Family

theorem ofKind_of_not_delimited {kind : Kind} (h : kind.isDelimited = false) : ofKind? kind = none := by
  cases kind <;> first | rfl | cases h

theorem isDelimited_of_ofKind {kind : Kind} {family : Family} (h : ofKind? kind = some family) :
    kind.isDelimited = true ∧ kind ≠ .globalMacro := by
  cases kind with
  | localMacro | compoundString => exact ⟨rfl, nofun⟩
  | _ => cases h

variable (family : Family) (kinds : List Kind)

theorem runOf_other {kind : Kind} (hkind : kind ≠ .error) (h : ofKind? kind ≠ some family) :
    family.runOf (kind :: kinds) = 0 := by simp [runOf, hkind, h]

theorem runOf_same {kind : Kind} (h : ofKind? kind = some family) :
    family.runOf (kind :: kinds) = family.runOf kinds + 1 := by
  have hkind : kind ≠ .error := fun e => by rw [e] at h; cases h
  simp [runOf, hkind, h]

theorem ofKind_kindAt (depth : Nat) : ofKind? (family.kindAt depth) = some family := by cases family <;> rfl

end Family

/-- A construct that opens in a setting is as deep as its family is there. -/
theorem Setting.depth_of_opens {outer : Setting} {family : Family} {depth : Nat}
    (h : outer.Opens (.nested family depth)) : depth = outer.depthIn family + 1 := by
  rcases outer with _ | _ | ⟨f, d⟩
  · exact h
  · cases h
  · cases f <;> cases family <;> first | exact h | cases h

namespace Place

/-- A place in a setting, as the kinds above it tell. An incomplete tree is alone in a problem node. -/
structure Sits (complete : Bool) (outer : Setting) (p : Place) : Prop where
  nests : Tree.Nests complete outer p.tree
  depth : ∀ family : Family, family.runOf p.parentKinds = outer.depthIn family
  alone : complete = false → ∃ e, p.parent? = some e ∧ e.kind = .error ∧ e.children = [p]

namespace Sits

variable {complete : Bool} {outer : Setting} {p c : Place}

theorem depth_within (h : ∀ family : Family, family.runOf p.parentKinds = outer.depthIn family) {q : Construct}
    (hq : outer.Opens q) (family : Family) :
    family.runOf (q.kind :: p.parentKinds) = (Setting.within q).depthIn family := by
  rcases q with _ | ⟨f, depth⟩
  · exact family.runOf_other _ (by decide) nofun
  · by_cases hf : f = family
    · subst hf
      have hrun := f.runOf_same p.parentKinds (f.ofKind_kindAt depth)
      rw [h, ← Setting.depth_of_opens hq] at hrun
      simp [Construct.kind, Setting.depthIn, hrun]
    · have hother : Family.ofKind? (f.kindAt depth) ≠ some family := by
        cases f <;> exact fun e => hf (Option.some.inj e)
      have hne : f.kindAt depth ≠ .error := by cases f <;> simp [Family.kindAt, Kind.localMacroAt, Kind.compoundStringAt]
      simp [Construct.kind, Setting.depthIn, hf, Family.runOf_other _ _ hne hother]

theorem of_nests (h : Tree.Nests true outer p.tree)
    (hdepth : ∀ family : Family, family.runOf p.parentKinds = outer.depthIn family) : Sits true outer p :=
  ⟨h, hdepth, nofun⟩

theorem child (h : Sits complete outer p) (hc : c ∈ p.children) (hnode : c.isLeaf = false) :
    ∃ complete outer, Sits complete outer c := by
  obtain ⟨i, hi⟩ := List.mem_iff_getElem?.mp hc
  have hmem := tree_mem_children hc
  have hkinds := parentKinds_of_child hi
  have hrun := h.depth
  have hleaf : ∀ {kind : Kind}, ¬ c.tree.IsToken kind := by
    intro kind ⟨text, htree, _⟩
    rw [isLeaf, htree] at hnode
    cases hnode
  have hnests := h.nests
  rw [kind] at hkinds
  generalize htree : p.tree = t at hnests hmem hkinds
  cases hnests with
  | leaf => cases hmem
  | @node kind _ hk hts =>
    refine ⟨true, .line, of_nests (hts _ hmem) fun family => ?_⟩
    rw [hkinds]
    by_cases herror : kind = .error
    · subst herror
      exact hrun family
    · exact family.runOf_other _ herror ((Family.ofKind_of_not_delimited hk).trans_ne (Option.some_ne_none family).symm)
  | token _ htoken =>
    obtain ⟨text, rfl, -⟩ := htoken
    cases hmem
  | reference _ htokens => exact absurd hmem (Tree.not_mem_tokens htokens hnode)
  | construct hq ho hts hcs =>
    rcases List.mem_cons.mp hmem with rfl | hmem
    · exact absurd ho hleaf
    · rcases List.mem_append.mp hmem with hmem | hmem
      · exact ⟨true, .within _, of_nests (hts _ hmem) (hkinds ▸ depth_within hrun hq)⟩
      · exact absurd hmem (Tree.not_mem_tokens hcs hnode)
  | givenUp ht =>
    obtain rfl := List.mem_singleton.mp hmem
    have halone : p.children = [c] := children_eq_singleton hc (by rw [htree]; rfl)
    have herror : p.kind = .error := by rw [kind, htree]; rfl
    refine ⟨false, outer, ht, fun family => ?_, fun _ => ⟨p, (parent_of_child hi).1, herror, halone⟩⟩
    rw [hkinds]
    exact hrun family

theorem node (h : Sits complete outer p) : ∀ n ∈ p.nodes, ∃ complete outer, Sits complete outer n := by
  induction p using induct generalizing complete outer with
  | step p ih =>
    intro n hn
    obtain ⟨hmem, hnode⟩ := mem_nodes_iff.mp hn
    rcases mem_elements_iff.mp hmem with rfl | ⟨c, hc, hn⟩
    · exact ⟨complete, outer, h⟩
    · cases hleaf : c.isLeaf with
      | true =>
        rw [elements_leaf hleaf, List.mem_singleton] at hn
        rw [hn, hleaf] at hnode
        cases hnode
      | false =>
        obtain ⟨_, _, hsits⟩ := h.child hc hleaf
        exact ih c hc hsits n (mem_nodes_iff.mpr ⟨hn, hnode⟩)

end Sits

end Place

namespace Parse

theorem sits_of_node {text : List Char} (hsize : byteSize text ≤ maxOffset) {n : Place}
    (hn : n ∈ (ofText text).root.nodes) : ∃ complete outer, n.Sits complete outer := by
  obtain ⟨items, l, h⟩ := Reading.exists_lines text
  have hitems := (Reading.derives_lines _ trivial h).nests trivial
  have hroot : (ofText text).root.Sits true .line := by
    refine .of_nests ?_ fun _ => rfl
    rw [tree_of_lines h hsize]
    have hlast : ∀ t ∈ Item.trees [l.item], Tree.Nests true .line t :=
      List.forall_mem_singleton.mpr (.leaf l.isNode_kind fun hd => by cases (kind_of_lines h).symm.trans hd)
    exact .node rfl ((Item.spaced_forest _).forall (Item.forall_trees_append hitems hlast) fun _ =>
      .leaf rfl (by decide))
  exact hroot.node n hn

end Parse

end Dofile
