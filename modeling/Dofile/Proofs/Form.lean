import Dofile.Proofs.Context
import Dofile.Typed
import Mathlib.Computability.Language
import Mathlib.Order.CompletePartialOrder

/-!
# Forms of nodes

The form of a node says which rows of children it may have, blanks aside: it is a
language over trees. A reading yields a language if the trees of its items are always a
word of it, and all nodes in them have their forms.
-/

namespace Dofile

namespace Tree

def children : Tree → List Tree
  | .leaf .. => []
  | .node _ ts => ts

def contents (t : Tree) : List Tree := t.children.filter (·.kind != .whitespace)

mutual

def All (P : Tree → Prop) : Tree → Prop
  | .leaf k text => P (.leaf k text)
  | .node k ts => P (.node k ts) ∧ AllOf P ts

def AllOf (P : Tree → Prop) : List Tree → Prop
  | [] => True
  | t :: ts => t.All P ∧ AllOf P ts

end

theorem allOf_iff {P : Tree → Prop} (ts : List Tree) : AllOf P ts ↔ ∀ t ∈ ts, t.All P := by
  induction ts with
  | nil => simp [AllOf]
  | cons t ts ih => simp [AllOf, ih]

theorem all_node {P : Tree → Prop} {kind : Kind} {ts : List Tree} (h : P (.node kind ts)) (hts : ∀ t ∈ ts, t.All P) :
    (node kind ts).All P := ⟨h, (allOf_iff ts).mpr hts⟩

end Tree

/-- Whether a kind labels no part of an argument: line breaks, the end of the text, names and prefixes,
statements and the keywords that are words elsewhere. -/
def Kind.isReserved (k : Kind) : Bool :=
  [.newline, .eof, .name, .commandPrefix].contains k || Typed.isStatement k || contextualKeywords.contains k

/-! ## Languages of trees -/

abbrev Form := Language Tree

namespace Form

def only (P : Tree → Prop) : Form := {ts | ∃ t, ts = [t] ∧ P t}

def each (P : Tree → Prop) : Form := {ts | ∀ t ∈ ts, P t}

def one (kind : Kind) : Form := only fun t => t.kind = kind

def many (kind : Kind) : Form := each fun t => t.kind = kind

def optional (L : Form) : Form := 1 + L

def IsArgument (t : Tree) : Prop := t.All fun u => u.kind.isReserved = false

def arguments : Form := each IsArgument

def IsRemark (t : Tree) : Prop := t.kind.isComment = true ∨ t.kind = .error

def remarks : Form := each IsRemark

def IsBodyItem (t : Tree) : Prop :=
  t.kind = .newline ∨ t.kind.isComment = true ∨ Typed.isStatement t.kind = true ∨ t.kind = .error

def body : Form := each IsBodyItem

def leaves : Form := each fun t => t.isLeaf = true

end Form

open Form in
def Kind.form : Kind → Form
  | .name => one .ident
  | .commandPrefix => one .prefixKeyword * optional (one .colon)
  | .comment => only IsRemark
  | .command => (many .commandPrefix * one .name + one .error) * arguments
  | .macroDefinition =>
    (one .localKeyword + one .globalKeyword) * optional (one .name) * arguments +
      one .tempKeyword * many .name * remarks
  | .blockClose => one .rightBrace * arguments
  | .programDefinition =>
    one .programKeyword * optional (one .defineKeyword) * optional (one .name) * arguments *
      optional (one .newline * body * optional (one .endKeyword * remarks))
  | .sourceFile => body * one .eof
  | .mataBlock => one .mataKeyword * leaves * optional (one .rightBrace + one .endKeyword * remarks)
  | .doubleString | .compoundString _ | .localMacro _ | .globalMacro => arguments
  | .error => arguments + one .endKeyword * remarks + one .programDefinition + one .mataBlock
  | _ => 0

def Tree.IsShaped : Tree → Prop
  | .leaf k _ => k.isNode = false
  | .node k ts => k.isNode = true ∧ (Tree.node k ts).contents ∈ k.form

namespace Form

section
variable {P Q : Tree → Prop} {L M : Form}

theorem only_le_each (h : ∀ t, P t → Q t) : only P ≤ each Q := by
  intro ts hts
  obtain ⟨t, rfl, ht⟩ := hts
  intro u hu
  rw [List.mem_singleton.mp hu]
  exact h t ht

theorem only_le_only (h : ∀ t, P t → Q t) : only P ≤ only Q := by
  intro ts hts
  obtain ⟨t, rfl, ht⟩ := hts
  exact ⟨t, rfl, h t ht⟩

theorem each_le_each (h : ∀ t, P t → Q t) : each P ≤ each Q := fun _ hts t ht => h t (hts t ht)

theorem one_le_each (P : Tree → Prop) : (1 : Form) ≤ each P := by
  intro ts hts t ht
  rw [(Language.mem_one ts).mp hts] at ht
  cases ht

theorem each_mul_each (P : Tree → Prop) : each P * each P ≤ each P := by
  intro ts hts
  obtain ⟨us, hus, vs, hvs, rfl⟩ := Language.mem_mul.mp hts
  intro t ht
  exact (List.mem_append.mp ht).elim (hus t) (hvs t)

theorem le_optional : L ≤ optional L := fun _ h => .inr h

theorem one_le_optional : 1 ≤ optional L := fun _ h => .inl h

theorem optional_le_optional (h : L ≤ M) : optional L ≤ optional M := fun _ => Or.imp_right (h ·)

theorem le_mul_optional (L M : Form) : L ≤ L * optional M := by
  have := mul_le_mul_right (one_le_optional (L := M)) L
  rwa [mul_one] at this

end

end Form

/-! ## Trees of items -/

namespace Item

def trees (items : List Item) : List Tree := (scriptsAll items).map Script.tree

theorem trees_append (is js : List Item) : trees (is ++ js) = trees is ++ trees js := by
  simp [trees, scriptsAll_append]

theorem forall_trees_append {P : Tree → Prop} {is js : List Item} (h : ∀ t ∈ trees is, P t)
    (h' : ∀ t ∈ trees js, P t) : ∀ t ∈ trees (is ++ js), P t := by
  rw [trees_append]
  exact List.forall_mem_append.mpr ⟨h, h'⟩

theorem trees_token (l : Lexer) (kind : Kind) : trees [.token l kind] = [.leaf kind l.ahead.text] := rfl

theorem trees_found (f : Finding) : trees [.found f] = [] := rfl

theorem trees_node (kind : Kind) (items : List Item) :
    trees [.node kind items] = [.node kind (Script.waiting (scriptsAll items))] := rfl

theorem trees_enclosed (kind : Kind) (items : List Item) :
    trees [.enclosed kind items] = [.node .error [.node kind (Script.waiting (scriptsAll items))]] := rfl

theorem trees_givenUp (kind : Kind) (items : List Item) (f : Finding) :
    trees [.enclosed kind (items ++ [.found f])] =
      [.node .error [.node kind (Script.waiting (scriptsAll items))]] := by
  rw [trees_enclosed, scriptsAll_append]
  simp [scriptsAll, scripts]

end Item

theorem Account.ne_whitespace {l l' : Lexer} {items : List Item} (h : Account l items l') :
    ∀ t ∈ Item.trees items, t.kind ≠ .whitespace := by
  induction h with
  | skip | relex | found => simp [Item.trees, Item.scriptsAll, Item.scripts]
  | @take l =>
    intro t ht
    rw [Lexer.item, Item.trees_token, List.mem_singleton] at ht
    rw [ht]
    exact l.kind_ne_whitespace
  | word _ hk =>
    intro t ht
    rw [Item.trees_token, List.mem_singleton] at ht
    rw [ht]
    exact Kind.ne_whitespace_of_mem_wordLabels hk
  | node hk =>
    intro t ht
    rw [Item.trees_node, List.mem_singleton] at ht
    rw [ht]
    exact ne_whitespace_of_isNode hk
  | enclosed =>
    intro t ht
    rw [Item.trees_enclosed, List.mem_singleton] at ht
    rw [ht]
    exact ne_whitespace_of_isNode Kind.isNode_error
  | append _ _ ih ih' => exact Item.forall_trees_append ih ih'

namespace Script

theorem mem_forest {ss : List Script} {t : Tree} (h : t ∈ forest ss) :
    t ∈ ss.map tree ∨ ∃ blanks, t = .leaf .whitespace blanks := by
  induction ss with
  | nil => cases h
  | cons s ss ih =>
    rw [forest, List.mem_append, List.mem_cons] at h
    rcases h with h | rfl | h
    · cases hlead : s.lead with
      | nil => simp [hlead, blankLeaf] at h
      | cons c blanks =>
        rw [hlead, blankLeaf, List.mem_singleton] at h
        exact .inr ⟨_, h⟩
    · exact .inl (List.mem_cons_self)
    · exact (ih h).imp_left (List.mem_cons_of_mem _)

theorem mem_waiting {ss : List Script} {t : Tree} (h : t ∈ waiting ss) :
    t ∈ ss.map tree ∨ ∃ blanks, t = .leaf .whitespace blanks := by
  apply mem_forest
  rw [forest_eq]
  exact List.mem_append_right _ h

theorem filter_forest {ss : List Script} (h : ∀ t ∈ ss.map tree, t.kind ≠ .whitespace) :
    (forest ss).filter (·.kind != .whitespace) = ss.map tree := by
  induction ss with
  | nil => rfl
  | cons s ss ih =>
    have hblank : (blankLeaf s.lead).filter (·.kind != .whitespace) = [] := by
      cases s.lead <;> simp [blankLeaf, Tree.kind]
    have hs : s.tree.kind ≠ .whitespace := h s.tree (by simp)
    have hss := ih fun t ht => h t (List.mem_cons_of_mem _ ht)
    rw [forest, List.filter_append, hblank, List.nil_append]
    simp [hs, hss]

theorem filter_waiting {ss : List Script} (h : ∀ t ∈ ss.map tree, t.kind ≠ .whitespace) :
    (waiting ss).filter (·.kind != .whitespace) = ss.map tree := by
  have hall := filter_forest h
  rw [forest_eq, List.filter_append] at hall
  have hblank : (blankLeaf (leadAll ss)).filter (·.kind != .whitespace) = [] := by
    cases leadAll ss <;> simp [blankLeaf, Tree.kind]
  rwa [hblank] at hall

end Script

def Item.Spaced (items : List Item) (ts : List Tree) : Prop :=
  ∀ t ∈ ts, t ∈ trees items ∨ ∃ blanks, t = .leaf .whitespace blanks

namespace Item

variable {items : List Item} {ts : List Tree} {P : Tree → Prop}

theorem spaced_waiting (items : List Item) : Spaced items (Script.waiting (scriptsAll items)) :=
  fun _ => Script.mem_waiting

theorem spaced_forest (items : List Item) : Spaced items (Script.forest (scriptsAll items)) :=
  fun _ => Script.mem_forest

theorem Spaced.forall (h : Spaced items ts) (htrees : ∀ t ∈ trees items, P t)
    (hblank : ∀ blanks, P (.leaf .whitespace blanks)) : ∀ t ∈ ts, P t := by
  intro t ht
  rcases h t ht with ht | ⟨blanks, rfl⟩
  · exact htrees t ht
  · exact hblank blanks

end Item

structure Item.Yield (L : Form) (items : List Item) : Prop where
  mem : trees items ∈ L
  shaped : ∀ t ∈ trees items, t.All Tree.IsShaped

namespace Item

variable {L M : Form} {is js : List Item}

theorem Yield.mono (h : Yield L is) (hLM : L ≤ M) : Yield M is := ⟨hLM h.mem, h.shaped⟩

theorem Yield.append (h : Yield L is) (h' : Yield M js) : Yield (L * M) (is ++ js) where
  mem := by
    rw [trees_append]
    exact Language.append_mem_mul h.mem h'.mem
  shaped := forall_trees_append h.shaped h'.shaped

theorem yield_nothing {is : List Item} (h : trees is = []) : Yield 1 is :=
  ⟨h, by simp [h]⟩

theorem yield_token (l : Lexer) {kind : Kind} (hk : kind.isNode = false) :
    Yield (Form.one kind) [.token l kind] := by
  refine ⟨⟨_, rfl, rfl⟩, fun t ht => ?_⟩
  rw [trees_token, List.mem_singleton] at ht
  rw [ht]
  exact hk

/-- A node over the trees of some items. The blanks between its children are no part of its form. -/
theorem Yield.over (h : Yield L is) {ts : List Tree} (hts : ts.filter (·.kind != .whitespace) = trees is)
    (hspaced : Spaced is ts) {kind : Kind} (hk : kind.isNode = true) (hform : L ≤ kind.form) :
    (Tree.node kind ts).All Tree.IsShaped := by
  refine Tree.all_node ⟨hk, ?_⟩ (hspaced.forall h.shaped fun _ => rfl)
  rw [Tree.contents, Tree.children, hts]
  exact hform h.mem

theorem Yield.node (h : Yield L is) (hws : ∀ t ∈ trees is, t.kind ≠ .whitespace) {kind : Kind}
    (hk : kind.isNode = true) (hform : L ≤ kind.form) :
    (Tree.node kind (Script.waiting (scriptsAll is))).All Tree.IsShaped :=
  h.over (Script.filter_waiting hws) (spaced_waiting is) hk hform

theorem all_error {t : Tree} (h : t.All Tree.IsShaped) (ht : t.kind ≠ .whitespace) (hform : [t] ∈ Kind.error.form) :
    (Tree.node .error [t]).All Tree.IsShaped := by
  refine ⟨⟨Kind.isNode_error, ?_⟩, h, trivial⟩
  simpa [Tree.contents, Tree.children, ht] using hform

theorem arguments_le_error : Form.arguments ≤ Kind.error.form := fun _ h => .inl (.inl (.inl h))

theorem isArgument_node (h : ∀ t ∈ trees is, Form.IsArgument t) {kind : Kind} (hk : kind.isReserved = false) :
    Form.IsArgument (.node kind (Script.waiting (scriptsAll is))) :=
  Tree.all_node hk ((spaced_waiting is).forall h fun _ => (by decide : Kind.whitespace.isReserved = false))

end Item

namespace Reading

open Form (IsArgument only each one)

def Yields (c : Lexer → Prop) (R : Reading) (L : Form) : Prop :=
  ∀ ⦃l items l'⦄, c l → R.leads l items l' → Item.Yield L items

section
variable {c d : Lexer → Prop} {R S : Reading} {L M N : Form} {P : Tree → Prop}

theorem Yields.mono (h : Yields c R L) (hLM : L ≤ M) : Yields c R M := fun _ _ _ hl hR => (h hl hR).mono hLM

theorem Yields.on (h : Yields c R L) (hc : ∀ l, d l → c l) : Yields d R L := fun _ _ _ hl hR => h (hc _ hl) hR

theorem yields_take {p : Kind → Prop} (mode : Mode) :
    Yields (fun l => p l.kind) (take mode) (only fun t => p t.kind) := by
  intro l _ _ hl h
  obtain ⟨-, rfl, -⟩ := h
  exact ⟨⟨_, rfl, hl⟩, (Item.yield_token l l.isNode_kind).shaped⟩

theorem yields_kind (kind : Kind) (mode : Mode) : Yields (·.kind = kind) (take mode) (one kind) :=
  yields_take (p := (· = kind)) mode

theorem yields_leaf (mode : Mode) (c : Lexer → Prop) : Yields c (take mode) (only fun t => t.isLeaf = true) := by
  intro l _ _ _ h
  obtain ⟨-, rfl, -⟩ := h
  exact ⟨⟨_, rfl, rfl⟩, (Item.yield_token l l.isNode_kind).shaped⟩

theorem isReserved_eq_false {l : Lexer} (h : ¬ l.EndsLine) : l.kind.isReserved = false := by
  have hall : ∀ mode : Mode, ∀ k ∈ mode.kinds, k.isReserved = false := by
    intro mode
    cases mode <;> decide
  rcases l.kind_cases with he | he | he
  · exact absurd (.inr he) h
  · exact absurd (.inl he) h
  · exact hall l.mode l.kind he

theorem yields_token (mode : Mode) : Yields (fun l => ¬ l.EndsLine) (take mode) (only IsArgument) := by
  intro l _ _ hl h
  obtain ⟨-, rfl, -⟩ := h
  exact ⟨⟨_, rfl, isReserved_eq_false hl⟩, (Item.yield_token l l.isNode_kind).shaped⟩

theorem yields_word {kind : Kind} (hk : kind ∈ Kind.wordLabels) (mode : Mode) (c : Lexer → Prop) :
    Yields c (word kind mode hk) (one kind) := by
  intro l _ _ _ h
  obtain ⟨-, rfl, -⟩ := h
  exact Item.yield_token l (Kind.isNode_of_mem_wordLabels hk)

theorem yields_report (problem : Problem) (c : Lexer → Prop) : Yields c (report problem) 1 := by
  intro _ _ _ _ h
  obtain ⟨rfl, -⟩ := h
  exact Item.yield_nothing (Item.trees_found _)

theorem yields_skip (c : Lexer → Prop) : Yields c skip 1 := by
  intro _ _ _ _ h
  obtain ⟨rfl, -⟩ := h
  exact Item.yield_nothing rfl

theorem yields_relex (mode : Mode) (c : Lexer → Prop) : Yields c (relex mode) 1 := by
  intro _ _ _ _ h
  obtain ⟨rfl, -⟩ := h
  exact Item.yield_nothing rfl

theorem Yields.seq (h : Yields c R L) (h' : Yields (fun _ => True) S M) : Yields c (R.seq S) (L * M) := by
  intro _ _ _ hl hRS
  obtain ⟨is, m, js, hR, hS, rfl⟩ := hRS
  exact (h hl hR).append (h' trivial hS)

/-- The second reading need only be of its form where the first one stops. -/
theorem Yields.upTo_seq (h : Yields c R L) (h' : Yields d S M) : Yields c ((R.upTo d).seq S) (L * M) := by
  intro _ _ _ hl hRS
  obtain ⟨is, m, js, ⟨hR, hm⟩, hS, rfl⟩ := hRS
  exact (h hl hR).append (h' hm hS)

theorem Yields.report_seq (h : Yields c S M) (problem : Problem) : Yields c ((report problem).seq S) M := by
  intro l _ _ hl hRS
  obtain ⟨_, _, js, ⟨rfl, rfl⟩, hS, rfl⟩ := hRS
  have hjs := h hl hS
  have htrees : ∀ f, Item.trees ([.found f] ++ js) = Item.trees js := fun f => by
    rw [Item.trees_append, Item.trees_found, List.nil_append]
  exact ⟨by rw [htrees]; exact hjs.mem, by rw [htrees]; exact hjs.shaped⟩

theorem Yields.when (h : Yields (fun l => c l ∧ d l) R L) : Yields c (R.when d) L :=
  fun _ _ _ hl hR => h ⟨hl, hR.1⟩ hR.2

theorem Yields.upTo (h : Yields c R L) (d : Lexer → Prop) : Yields c (R.upTo d) L :=
  fun _ _ _ hl hR => h hl hR.1

theorem Yields.or (h : Yields c R L) (h' : Yields c S L) : Yields c (R.or S) L :=
  fun _ _ _ hl hRS => hRS.elim (h hl ·) (h' hl ·)

theorem Yields.either (h : Yields (fun l => c l ∧ d l) R L) (h' : Yields (fun l => c l ∧ ¬ d l) S L) :
    Yields c (either d R S) L :=
  Yields.or h.when h'.when

theorem yields_absurd (h : ∀ l, ¬ c l) : Yields c R L := fun l _ _ hl _ => absurd hl (h l)

theorem Yields.any {R : Nat → Reading} (h : ∀ n, Yields c (R n) L) : Yields c (any R) L :=
  fun _ _ _ hl ⟨n, hR⟩ => h n hl hR

theorem Yields.many {stops : Lexer → Prop} (h : Yields (fun l => ¬ stops l) R (each P)) (c : Lexer → Prop) :
    Yields c (many stops R) (each P) := by
  intro l items l' hl hmany
  -- each turn starts where the loop does not stop, and that is all it needs
  clear hl
  induction hmany with
  | done => exact (Item.yield_nothing rfl).mono (Form.one_le_each P)
  | more hs first _ ih => exact ((h hs first).append ih).mono (Form.each_mul_each P)

theorem Yields.append (h : Yields c R (each P)) (h' : Yields (fun _ => True) S (each P)) :
    Yields c (R.seq S) (each P) := (h.seq h').mono (Form.each_mul_each P)

theorem Yields.node (h : Yields c R L) {kind : Kind} (hk : kind.isNode = true) (hform : L ≤ kind.form) :
    Yields c (node kind R hk) (one kind) := by
  intro _ _ _ hl hR
  obtain ⟨is, hR, rfl⟩ := hR
  refine ⟨⟨_, rfl, rfl⟩, fun t ht => ?_⟩
  rw [Item.trees_node, List.mem_singleton] at ht
  rw [ht]
  exact (h hl hR).node (R.account hR).ne_whitespace hk hform

theorem Yields.argumentNode (h : Yields c R Form.arguments) {kind : Kind} (hk : kind.isNode = true)
    (hform : Form.arguments ≤ kind.form) (hr : kind.isReserved = false) :
    Yields c (Reading.node kind R hk) (only IsArgument) := by
  intro _ _ _ hl hR
  have hnode := h.node hk hform hl hR
  obtain ⟨is, hR, rfl⟩ := hR
  exact ⟨⟨_, rfl, Item.isArgument_node (h hl hR).mem hr⟩, hnode.shaped⟩

theorem Yields.givenUp (h : Yields c R L) {kind : Kind} {problem : Problem} {span : Lexer → Lexer → Span}
    (hk : kind.isNode = true) (hform : L ≤ kind.form) (herror : one kind ≤ Kind.error.form) :
    Yields c (givenUp kind problem span R hk) (one .error) := by
  intro _ _ _ hl hR
  obtain ⟨is, hR, -, rfl⟩ := hR
  have hnode := (h hl hR).node (R.account hR).ne_whitespace hk hform
  refine ⟨⟨_, Item.trees_givenUp .., rfl⟩, fun t ht => ?_⟩
  rw [Item.trees_givenUp, List.mem_singleton] at ht
  rw [ht]
  exact Item.all_error hnode (ne_whitespace_of_isNode hk) (herror ⟨_, rfl, rfl⟩)

theorem Yields.argumentGivenUp (h : Yields c R Form.arguments) {kind : Kind} {problem : Problem}
    {span : Lexer → Lexer → Span} (hk : kind.isNode = true) (hform : Form.arguments ≤ kind.form)
    (hr : kind.isReserved = false) : Yields c (Reading.givenUp kind problem span R hk) (only IsArgument) := by
  intro _ _ _ hl hR
  obtain ⟨is, hR, -, rfl⟩ := hR
  have hnode := (h hl hR).node (R.account hR).ne_whitespace hk hform
  have hargument := Item.isArgument_node (h hl hR).mem hr
  refine ⟨⟨_, Item.trees_givenUp .., rfl, hargument, trivial⟩, fun t ht => ?_⟩
  rw [Item.trees_givenUp, List.mem_singleton] at ht
  rw [ht]
  refine Item.all_error hnode (ne_whitespace_of_isNode hk) (Item.arguments_le_error fun u hu => ?_)
  rw [List.mem_singleton.mp hu]
  exact hargument

end

end Reading

end Dofile
