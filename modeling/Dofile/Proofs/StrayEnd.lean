import Dofile.Proofs.Begins
import Dofile.Proofs.Discipline
import Dofile.Proofs.Programs
import Mathlib.Data.List.Chain

/-!
# Ends that close nothing

The lines of a program are read up to one that begins with an `end`, so an `end` there closes the
innermost program. Behind block comments of its line the rule for statements reads it, and takes it
for one without a program, be there one or not.
-/

namespace Dofile

theorem isOneOf_singleton {word : String} {text : List Char} (h : Word.isOneOf [word] text = true) :
    text = word.toList :=
  List.mem_singleton.mp (Word.isOneOf_iff.mp h)

/-- In statement text an `end` is a word. -/
theorem Lexer.isWordOf_end {l : Lexer} (hl : l.SameIn .statement) (h : l.ahead.text = "end".toList) :
    l.IsWordOf ["end"] := by
  refine ⟨?_, by rw [h]; rfl⟩
  rcases hl with hmode | he
  · have hbody := l.text_append_after
    rw [h] at hbody
    exact (Lexer.isWord_iff hmode).mpr (by rw [← hbody]; rfl)
  · rw [l.text_eq_nil_iff.mpr he] at h
    cases h

/-! ## Trees -/

namespace Tree

def isStrayEnd : Tree → Bool
  | .node .error (.leaf .endKeyword text :: _) => text == "end".toList
  | _ => false

def IsBlockComment (t : Tree) : Prop := t.kind = .comment ∧ ∃ text, t.leaves = [.leaf .blockComment text]

/-- What two trees side by side in a program owe to its `end`: only behind a block comment an `end` closes
nothing, and behind a line break it closes the program. -/
structure Precedes (a b : Tree) : Prop where
  comment : b.isStrayEnd = true → a.IsBlockComment
  newline : a.kind = .newline → b.firstText? = some "end".toList → b.isLeaf = true ∧ b.kind = .endKeyword

def IsBody (ts : List Tree) : Prop := ts.IsChain Precedes ∧ ∀ t ∈ ts.head?, t.firstText? ≠ some "end".toList

structure KeepsEnds (t : Tree) : Prop where
  program : t.kind = .programDefinition →
    t.contents.IsChain Precedes ∧ ∀ c ∈ t.contents.head?, c.isStrayEnd = false
  other : t.kind ≠ .programDefinition → ∀ c ∈ t.children, c.isStrayEnd = false

theorem IsPlain.not_strayEnd {t : Tree} (h : t.IsPlain) : t.isStrayEnd = false := by
  unfold isStrayEnd
  split
  · exact absurd rfl (h.2 (by decide) _ List.mem_cons_self)
  · rfl

theorem not_strayEnd_of_kind {t : Tree} (h : t.kind ≠ .error) : t.isStrayEnd = false := by
  unfold isStrayEnd
  split
  · exact absurd rfl h
  · rfl

theorem kind_of_strayEnd {t : Tree} (h : t.isStrayEnd = true) : t.kind = .error := by
  by_contra hkind
  rw [not_strayEnd_of_kind hkind] at h
  cases h

theorem children_of_strayEnd {t : Tree} (h : t.isStrayEnd = true) :
    ∃ ts, t.children = .leaf .endKeyword "end".toList :: ts := by
  unfold isStrayEnd at h
  split at h
  · rw [← beq_iff_eq.mp h]
    exact ⟨_, rfl⟩
  · cases h

theorem firstText_of_strayEnd {t : Tree} (h : t.isStrayEnd = true) : t.firstText? = some "end".toList := by
  obtain ⟨ts, hchildren⟩ := children_of_strayEnd h
  cases t with
  | leaf => cases hchildren
  | node kind us =>
    obtain rfl : us = _ := hchildren
    rfl

theorem keepsEnds_leaf (kind : Kind) (text : List Char) : (leaf kind text).KeepsEnds :=
  ⟨fun _ => ⟨.nil, by simp [contents, children]⟩, fun _ _ hc => (by cases hc)⟩

theorem keepsEnds_of_plain {t : Tree} (h : t.All IsPlain) : t.KeepsEnds := by
  cases t with
  | leaf kind text => exact keepsEnds_leaf kind text
  | node kind ts =>
    exact ⟨fun hkind => absurd hkind h.self.1, fun _ c hc => ((allOf_iff ts).mp h.2 c hc).self.not_strayEnd⟩

theorem precedes_of_not {a b : Tree} (ha : a.kind ≠ .newline) (hb : b.isStrayEnd = false) : a.Precedes b :=
  ⟨fun h => (by rw [hb] at h; cases h), fun h => absurd h ha⟩

theorem precedes_of_firstText {b : Tree} (hb : b.firstText? ≠ some "end".toList) (a : Tree) : a.Precedes b :=
  ⟨fun h => absurd (firstText_of_strayEnd h) hb, fun _ h => absurd h hb⟩

theorem precedes_end (a : Tree) (text : List Char) : a.Precedes (leaf .endKeyword text) :=
  ⟨fun h => (by cases h), fun _ _ => ⟨rfl, rfl⟩⟩

theorem isChain_of_not {ts : List Tree} (h : ∀ t ∈ ts, t.kind ≠ .newline ∧ t.isStrayEnd = false) :
    ts.IsChain Precedes := by
  induction ts with
  | nil => exact .nil
  | cons t ts ih =>
    refine .cons (ih fun u hu => h u (List.mem_cons_of_mem t hu)) fun u hu => ?_
    exact precedes_of_not (h t List.mem_cons_self).1 (h u (List.mem_cons_of_mem t (List.mem_of_mem_head? hu))).2

theorem isChain_append {ts us : List Tree} (h : ts.IsChain Precedes) (h' : us.IsChain Precedes)
    (hts : ∀ t ∈ ts, t.kind ≠ .newline) (hus : ∀ t ∈ us, t.isStrayEnd = false) : (ts ++ us).IsChain Precedes :=
  List.isChain_append.mpr ⟨h, h', fun t ht u hu =>
    precedes_of_not (hts t (List.mem_of_mem_getLast? ht)) (hus u (List.mem_of_mem_head? hu))⟩

theorem isChain_body {ts us : List Tree} (h : ts.IsChain Precedes) (h' : IsBody us) : (ts ++ us).IsChain Precedes :=
  List.isChain_append.mpr ⟨h, h'.1, fun t _ u hu => precedes_of_firstText (h'.2 u hu) t⟩

theorem IsBody.append {ts us : List Tree} (h : IsBody ts) (h' : IsBody us) : IsBody (ts ++ us) := by
  refine ⟨isChain_body h.1 h', fun t ht => ?_⟩
  cases ts with
  | nil => exact h'.2 t ht
  | cons u ts => exact h.2 t ht

end Tree

def Finding.isStrayEnd (f : Finding) : Bool := f.problem == .strayEnd

/-! ## Items -/

open Item in
structure Ends (l : Lexer) (items : List Item) (m : Lexer) : Prop where
  account : Account l items m
  found : ((findingsAll items).filter Finding.isStrayEnd).map Finding.span =
    ((regions l items).filter (·.1.isStrayEnd)).map headSpan
  kept : ∀ t ∈ trees items, t.All Tree.KeepsEnds

namespace Ends

variable {l m m' : Lexer} {is js : List Item}

theorem plain (parent : Kind) (h : Account l is m) (hplain : Item.PlainAll parent is) : Ends l is m := by
  have htrees : ∀ t ∈ Item.trees is, t.All Tree.IsPlain := fun t ht => (hplain.trees is t ht).1
  refine ⟨h, ?_, fun t ht => Tree.All.imp (fun _ => Tree.keepsEnds_of_plain) t (htrees t ht)⟩
  have hfound : ∀ f ∈ Item.findingsAll is, f.isStrayEnd = false := fun f hf => by
    simpa [Finding.isStrayEnd] using fun e : f.problem = .strayEnd => hplain.findings is f hf (by rw [e]; decide)
  have hregions : ∀ r ∈ Item.regions l is, r.1.isStrayEnd = false := fun r hr =>
    (Item.regions_all htrees r hr).not_strayEnd
  rw [List.filter_eq_nil_iff.mpr fun f hf => by simp [hfound f hf],
    List.filter_eq_nil_iff.mpr fun r hr => by simp [hregions r hr]]
  rfl

theorem of_plain {R : Reading} (hplain : R.Plain .sourceFile) (h : R.leads l is m) : Ends l is m :=
  plain .sourceFile (R.account h) (hplain h)

theorem append (h : Ends l is m) (h' : Ends m js m') : Ends l (is ++ js) m' where
  account := h.account.append h'.account
  found := by
    rw [Item.findingsAll_append, Item.regions_append h.account, List.filter_append, List.filter_append,
      List.map_append, List.map_append, h.found, h'.found]
  kept := Item.forall_trees_append h.kept h'.kept

theorem not_strayEnd_of_plain {R : Reading} (hplain : R.Plain .sourceFile) (h : R.leads l is m) :
    ∀ t ∈ Item.trees is, t.isStrayEnd = false := fun t ht => ((hplain h).trees is t ht).1.self.not_strayEnd

/-- An `end` that closes nothing is found where it stands. -/
theorem stray {comments : List Item} (hl : l.IsWordOf ["end"]) (h : Account (l.next .statement) comments m)
    (hplain : Item.PlainAll .error comments) :
    Ends l [.node .error (.found ⟨.strayEnd, l.ahead.span⟩ :: .token l .endKeyword :: comments)] m := by
  have htail : Ends (l.next .statement) comments m := plain .error h hplain
  have hword : Account l [.token l .endKeyword] (l.next .statement) := .word hl.1 (by decide) .statement
  have hinside : Account l (.found ⟨.strayEnd, l.ahead.span⟩ :: .token l .endKeyword :: comments) m :=
    (Account.found l (Nat.le_add_right ..)).append (hword.append h)
  have hregions : Item.regions l (.found ⟨.strayEnd, l.ahead.span⟩ :: .token l .endKeyword :: comments) =
      (.leaf .endKeyword l.ahead.text, l.ahead.span) :: Item.regions (l.next .statement) comments := by
    change Item.regions l ([.token l .endKeyword] ++ comments) = _
    rw [Item.regions_append hword, Item.regions_token l (by decide)]
    rfl
  refine ⟨.node Kind.isNode_error hinside, ?_, fun t ht => ?_⟩
  · have hstray : (Tree.node .error (Script.waiting (Item.scriptsAll
        (.found ⟨.strayEnd, l.ahead.span⟩ :: .token l .endKeyword :: comments)))).isStrayEnd = true :=
      beq_iff_eq.mpr (isOneOf_singleton hl.2)
    rw [Item.regions_node hinside (by decide), List.filter_cons_of_pos (by exact hstray), hregions,
      List.filter_cons_of_neg (by simp [Tree.isStrayEnd]), List.map_cons, ← htail.found]
    simp only [Item.findingsAll, Item.findings, List.append_nil, List.nil_append, List.singleton_append]
    rw [List.filter_cons_of_pos (by rfl)]
    rfl
  · rw [Item.trees_node, List.mem_singleton] at ht
    subst ht
    have hchild : ∀ c ∈ Script.waiting (Item.scriptsAll
        (.found ⟨.strayEnd, l.ahead.span⟩ :: .token l .endKeyword :: comments)),
        c.isStrayEnd = false ∧ c.All Tree.KeepsEnds := by
      refine (Item.spaced_waiting _).forall (fun c hc => ?_) fun _ => ⟨rfl, Tree.keepsEnds_leaf _ _⟩
      rcases List.mem_cons.mp hc with rfl | hc
      · exact ⟨rfl, Tree.keepsEnds_leaf _ _⟩
      · exact ⟨(hplain.trees comments c hc).1.self.not_strayEnd, htail.kept c hc⟩
    exact Tree.all_node ⟨fun hk => (by cases hk), fun _ c hc => (hchild c hc).1⟩ fun c hc => (hchild c hc).2

section
variable (h : Ends l is m) (hchain : (Item.trees is).IsChain Tree.Precedes)
  (hhead : ∀ t ∈ (Item.trees is).head?, t.isStrayEnd = false)
include h hchain hhead

theorem kept_program : (Tree.node .programDefinition (Script.waiting (Item.scriptsAll is))).All Tree.KeepsEnds := by
  have hcontents : (Tree.node .programDefinition (Script.waiting (Item.scriptsAll is))).contents = Item.trees is :=
    Script.filter_waiting h.account.ne_whitespace
  exact Tree.all_node ⟨fun _ => by rw [hcontents]; exact ⟨hchain, hhead⟩, fun hne => absurd rfl hne⟩
    ((Item.spaced_waiting is).forall h.kept (Tree.keepsEnds_leaf _))

theorem program : Ends l [.node .programDefinition is] m := by
  refine ⟨.node (by decide) h.account, ?_, fun t ht => ?_⟩
  · rw [Item.regions_node h.account (by decide), List.filter_cons_of_neg (by simp [Tree.isStrayEnd]), ← h.found]
    simp [Item.findingsAll, Item.findings]
  · rw [Item.trees_node, List.mem_singleton] at ht
    rw [ht]
    exact kept_program h hchain hhead

theorem openProgram {f : Finding} (hf : f.span.start ≤ f.span.stop) (hproblem : f.problem ≠ .strayEnd) :
    Ends l [.enclosed .programDefinition (is ++ [.found f])] m := by
  refine ⟨.enclosed (by decide) (h.account.append (.found m hf)), ?_, fun t ht => ?_⟩
  · rw [Item.regions_givenUp h.account (by decide), List.filter_cons_of_neg (by simp [Tree.isStrayEnd]),
      List.filter_cons_of_neg (by simp [Tree.isStrayEnd]), ← h.found, Item.findingsAll_givenUp, List.filter_append,
      List.filter_cons_of_neg (by simpa [Finding.isStrayEnd] using hproblem)]
    simp
  · rw [Item.trees_givenUp, List.mem_singleton] at ht
    subst ht
    refine ⟨⟨fun hk => (by cases hk), fun _ c hc => ?_⟩, kept_program h hchain hhead, trivial⟩
    rw [List.mem_singleton.mp hc]
    rfl

end

end Ends

/-! ## Readings -/

namespace Reading

structure KeepsEnds (line : Reading) : Prop where
  ends : ∀ ⦃l items m⦄, l.SameIn .statement → line.leads l items m → Ends l items m
  body : ∀ ⦃l items m⦄, l.SameIn .statement → ¬ ProgramEnds l → line.leads l items m →
    Tree.IsBody (Item.trees items)

theorem isBlockComment_of_comments {l m : Lexer} {items : List Item}
    (h : (many (·.kind ≠ .blockComment) comment).leads l items m) : ∀ t ∈ Item.trees items, t.IsBlockComment := by
  induction h with
  | done => simp [Item.trees, Item.scriptsAll]
  | @more l _ _ is js hs first _ ih =>
    intro t ht
    rw [Item.trees_append, List.mem_append] at ht
    refine ht.elim (fun ht => ?_) (ih t)
    have hblock : l.kind = .blockComment := Classical.not_not.mp hs
    obtain ⟨_, first, rfl⟩ := first
    rw [Item.trees_node, List.mem_singleton] at ht
    subst ht
    refine ⟨rfl, l.ahead.text, ?_⟩
    rcases argument_of_comment (by rw [hblock]; rfl) first with rfl | ⟨-, rfl⟩
    · rw [Lexer.item, hblock]
      rfl
    · rw [Lexer.item, hblock]
      rfl

theorem isChain_of_unbroken {R : Reading} {L : Form} {l m : Lexer} {items : List Item}
    (hyields : Yields (fun _ => True) R L) (hL : L.Unbroken) (hplain : R.Plain .sourceFile) (h : R.leads l items m) :
    (Item.trees items).IsChain Tree.Precedes :=
  Tree.isChain_of_not fun t ht =>
    ⟨hL _ (hyields trivial h).mem t ht, Ends.not_strayEnd_of_plain hplain h t ht⟩

theorem isChain_endOfLine {l m : Lexer} {items : List Item} (h : endOfLine.leads l items m) :
    (Item.trees items).IsChain Tree.Precedes := by
  have hremnant : Yields (fun _ => True) remnant (.optional (.one .error)) :=
    ((yields_skip _).mono Form.one_le_optional).either
      (((yields_arguments.report_seq _).node _ Item.arguments_le_error).mono Form.le_optional)
  have herror : (Form.optional (.one .error)).Unbroken := (Form.unbroken_one (by decide)).optional
  have hplain : remnant.Plain .sourceFile :=
    plain_skip.either (((plain_report (by decide)).seq plain_arguments).node (by decide) _) _
  obtain ⟨cs, _, _, hcomments, ⟨rs, k, ns, hrest, hbreak, rfl⟩, rfl⟩ := h
  have hlast : (Item.trees ns).IsChain Tree.Precedes := by
    rcases hbreak with ⟨-, -, rfl, -⟩ | ⟨-, rfl, -⟩
    · exact .singleton _
    · exact .nil
  have hns := Ends.not_strayEnd_of_plain (plain_eat _ _) hbreak
  have hrs := Ends.not_strayEnd_of_plain hplain hrest
  rw [Item.trees_append, Item.trees_append]
  have hcs : Item.Yield Form.remarks cs := yields_trailingComments (c := fun _ => True) trivial hcomments
  refine Tree.isChain_append (isChain_of_unbroken yields_trailingComments Form.unbroken_remarks
    plain_trailingComments hcomments) ?_ (Form.unbroken_remarks _ hcs.mem) fun t ht =>
      (List.mem_append.mp ht).elim (hrs t) (hns t)
  exact Tree.isChain_append (isChain_of_unbroken hremnant herror hplain hrest) hlast
    (herror _ (hremnant trivial hrest).mem) hns

theorem not_newline_of_statement {line : Reading} (h : YieldsLines line) :
    Yields (fun l => ¬ l.EndsLine) (statement line) (.only fun t => t.kind ≠ .newline) := by
  have hone : ∀ {kind : Kind}, kind ≠ .newline → Form.one kind ≤ .only fun t => t.kind ≠ .newline := fun hne =>
    Form.only_le_only fun t ht => by rwa [ht]
  have hblock : ∀ {kind : Kind}, kind ≠ .newline → Form.only (IsBlock kind) ≤ .only fun t => t.kind ≠ .newline :=
    fun hne => Form.only_le_only fun t ht => by
      rcases ht with ht | ht
      · rwa [ht]
      · rw [ht]
        decide
  exact ((yields_comment.mono (hone (by decide))).on fun _ h => h.2).either <|
    ((yields_blockClose.mono (hone (by decide))).on fun _ h => h.2).either <|
    ((yields_programDefinition h).mono (hblock (by decide))).either <|
    (yields_mataBlock.mono (hblock (by decide))).either <|
    (yields_macroDefinition.mono (hone (by decide))).either <|
    (yields_temporaryDefinition.mono (hone (by decide))).either <|
    (yields_strayEnd.mono (hone (by decide))).either <|
    (yields_command.mono (hone (by decide))).on fun _ h => h.1.1.1.1.1.1.1

theorem firstText_ne_end {l : Lexer} {items : List Item} (hl : l.SameIn .statement) (hends : ¬ ProgramEnds l)
    (h : Item.BeginWith l.ahead.text items) : ∀ t ∈ (Item.trees items).head?, t.firstText? ≠ some "end".toList := by
  obtain ⟨t, ts, htrees, hfirst⟩ := h
  intro u hu he
  rw [htrees] at hu
  rw [← Option.mem_some.mp hu, hfirst] at he
  exact hends (.inr (Lexer.isWordOf_end hl (Option.some.inj he)))

theorem unbroken_headForm : headForm.Unbroken := by
  have hone : ∀ {kind : Kind}, kind ≠ .newline → (Form.one kind).Unbroken := Form.unbroken_one
  exact (((hone (by decide)).mul (hone (by decide)).optional).mul (hone (by decide)).optional).mul
    Form.unbroken_arguments

/-- The statement of a line follows nothing but block comments, and its line break comes last. -/
theorem isChain_fullLine {line : Reading} (hyields : YieldsLines line) {l m : Lexer} {items : List Item}
    (hR : (fullLine line).leads l items m) :
    (Item.trees items).IsChain Tree.Precedes := by
  obtain ⟨cs, k, _, hcomments, ⟨ss, n, es, hstatement, hend, rfl⟩, rfl⟩ := hR
  have hblock := isBlockComment_of_comments hcomments
  have hnewline : ∀ t ∈ Item.trees cs, t.kind ≠ .newline := fun t ht => by
    rw [(hblock t ht).1]
    decide
  have hcs : (Item.trees cs).IsChain Tree.Precedes := Tree.isChain_of_not fun t ht =>
    ⟨hnewline t ht, Tree.not_strayEnd_of_kind (by rw [(hblock t ht).1]; decide)⟩
  have hss : (Item.trees ss).IsChain Tree.Precedes ∧ ∀ t ∈ Item.trees ss, t.kind ≠ .newline := by
    rcases hstatement with ⟨-, rfl, -⟩ | ⟨hne, hstatement⟩
    · exact ⟨.nil, by simp [Item.trees, Item.scriptsAll]⟩
    · obtain ⟨t, htrees, hkind⟩ := (not_newline_of_statement hyields hne hstatement).mem
      rw [htrees]
      exact ⟨.singleton t, by simpa using hkind⟩
  have hes := Ends.not_strayEnd_of_plain plain_endOfLine hend
  rw [Item.trees_append, Item.trees_append, ← List.append_assoc]
  refine Tree.isChain_append (List.isChain_append.mpr ⟨hcs, hss.1, fun t ht u _ => ?_⟩) (isChain_endOfLine hend)
    (fun t ht => (List.mem_append.mp ht).elim (hnewline t) (hss.2 t)) hes
  have ht := List.mem_of_mem_getLast? ht
  exact ⟨fun _ => hblock t ht, fun hk => absurd hk (hnewline t ht)⟩

section
variable {line : Reading} (h : line.KeepsEnds) (hreads : ReadsStatement line)
include h hreads

/-- The lines of a program, up to one that begins with an `end`. -/
theorem ends_of_lines {l m : Lexer} {items : List Item} (hl : l.SameIn .statement)
    (hmany : (many ProgramEnds line).leads l items m) : Ends l items m ∧ Tree.IsBody (Item.trees items) := by
  induction hmany with
  | done => exact ⟨.plain .sourceFile (.skip _) trivial, .nil, by simp [Item.trees, Item.scriptsAll]⟩
  | more hne first _ ih =>
    obtain ⟨hends, hbody⟩ := ih (hreads first hl).1
    refine ⟨(h.ends hl first).append hends, ?_⟩
    rw [Item.trees_append]
    exact (h.body hl hne first).append hbody

theorem ends_opening {l m : Lexer} {items : List Item} (hl : l.SameIn .statement)
    (hR : (programHead.seq (many ProgramEnds line)).leads l items m) :
    Ends l items m ∧ (Item.trees items).IsChain Tree.Precedes ∧
      ∃ text ts, Item.trees items = .leaf .programKeyword text :: ts := by
  obtain ⟨head, k, body, hhead, hmany, rfl⟩ := hR
  obtain ⟨hends, hbody⟩ := ends_of_lines h hreads (reads_programHead hhead hl).1 hmany
  refine ⟨(Ends.plain .sourceFile (programHead.account hhead) (plain_programHead hhead)).append hends, ?_, ?_⟩
  · rw [Item.trees_append]
    exact Tree.isChain_body (isChain_of_unbroken yields_programHead unbroken_headForm plain_programHead hhead) hbody
  · obtain ⟨_, _, tail, ⟨-, rfl, -⟩, -, rfl⟩ := hhead
    exact ⟨_, _, rfl⟩

theorem ends_programDefinition {l m : Lexer} {items : List Item} (hl : l.SameIn .statement)
    (hR : (programDefinition line).leads l items m) : Ends l items m := by
  have hfirst : ∀ {text : List Char} {ts us : List Tree}, us = .leaf .programKeyword text :: ts →
      ∀ t ∈ us.head?, t.isStrayEnd = false := by
    rintro text ts _ rfl t ht
    rw [← Option.mem_some.mp ht]
    rfl
  rcases hR with ⟨is, ⟨hR, -⟩, hspan, rfl⟩ |
    ⟨_, ⟨is, b, _, ⟨hR, -⟩, ⟨_, _, comments, ⟨hword, rfl, rfl⟩, hcomments, rfl⟩, rfl⟩, rfl⟩
  · obtain ⟨hends, hchain, text, ts, hkeyword⟩ := ends_opening h hreads hl hR
    exact hends.openProgram hchain (hfirst hkeyword) hspan fun he => by cases he
  · obtain ⟨hends, hchain, text, ts, hkeyword⟩ := ends_opening h hreads hl hR
    have hend : Ends b [.token b .endKeyword] (b.next .statement) :=
      .plain .mataBlock (.word hword (by decide) _) (Item.plainAll_singleton.mpr fun hne => absurd rfl hne)
    have hclose := hend.append (Ends.plain .sourceFile (trailingComments.account hcomments)
      (plain_trailingComments hcomments))
    refine (hends.append hclose).program ?_ (hfirst (by rw [Item.trees_append, hkeyword]; rfl))
    have htail := isChain_of_unbroken yields_trailingComments Form.unbroken_remarks plain_trailingComments hcomments
    have hstray := Ends.not_strayEnd_of_plain plain_trailingComments hcomments
    rw [Item.trees_append]
    refine List.isChain_append.mpr ⟨hchain, htail.cons fun u hu => ?_, fun t _ u hu => ?_⟩
    · exact Tree.precedes_of_not (fun he => by cases he) (hstray u (List.mem_of_mem_head? hu))
    · rw [← Option.mem_some.mp hu]
      exact Tree.precedes_end t _

theorem ends_statement {l m : Lexer} {items : List Item} (hl : l.SameIn .statement)
    (hR : (statement line).leads l items m) : Ends l items m := by
  rcases hR with ⟨-, hR⟩ | ⟨-, ⟨-, hR⟩ | ⟨-, ⟨-, hR⟩ | ⟨-, ⟨-, hR⟩ | ⟨-, ⟨-, hR⟩ | ⟨-, ⟨-, hR⟩ |
    ⟨-, ⟨hend, hR⟩ | ⟨-, hR⟩⟩⟩⟩⟩⟩⟩
  · exact .of_plain plain_comment hR
  · exact .of_plain plain_blockClose hR
  · exact ends_programDefinition h hreads hl hR
  · exact .of_plain plain_mataBlock hR
  · exact .of_plain plain_macroDefinition hR
  · exact .of_plain plain_temporaryDefinition hR
  · obtain ⟨_, ⟨_, k, _, ⟨rfl, rfl⟩, ⟨_, _, comments, ⟨-, rfl, rfl⟩, hcomments, rfl⟩, rfl⟩, rfl⟩ := hR
    exact .stray hend (trailingComments.account hcomments) (plain_trailingComments hcomments)
  · exact .of_plain plain_command hR

theorem keepsEnds_lineWith (hyields : YieldsLines line) : (lineWith line).KeepsEnds where
  ends := by
    intro l items m hl hR
    obtain ⟨-, ⟨-, hR⟩ | ⟨-, hR⟩⟩ := hR
    · exact .of_plain (plain_take _) hR
    · obtain ⟨cs, k, _, hcomments, ⟨ss, n, es, hstatement, hend, rfl⟩, rfl⟩ := hR
      have hk : k.SameIn .statement := ((reads_comment.many _) hcomments hl).1
      have hstatement : Ends k ss n := by
        rcases hstatement with ⟨-, hskip⟩ | ⟨-, hstatement⟩
        · exact .of_plain plain_skip hskip
        · exact ends_statement h hreads hk hstatement
      exact (Ends.of_plain (plain_comment.many _) hcomments).append
        (hstatement.append (.of_plain plain_endOfLine hend))
  body := by
    intro l items m hl hends hR
    obtain ⟨he, ⟨-, hR⟩ | ⟨hn, hR⟩⟩ := hR
    · have hbegins := begins_take _ hR
      obtain ⟨-, rfl, -⟩ := hR
      exact ⟨.singleton _, firstText_ne_end hl hends hbegins⟩
    · refine ⟨isChain_fullLine hyields hR, firstText_ne_end hl hends ?_⟩
      obtain ⟨cs, k, _, hcomments, ⟨ss, n, es, hstatement, -, rfl⟩, rfl⟩ := hR
      cases hcomments with
      | done =>
        rcases hstatement with ⟨hends, -⟩ | ⟨-, hstatement⟩
        · exact absurd hends fun hends => hends.elim hn he
        · exact (begins_statement line hstatement).append es
      | more _ first rest => exact ((begins_comment first).append _).append _

end

theorem keepsEnds_line : ∀ depth : Nat, (line depth).KeepsEnds
  | 0 => ⟨fun _ _ _ _ h => h.elim, fun _ _ _ _ _ h => h.elim⟩
  | depth + 1 => keepsEnds_lineWith (keepsEnds_line depth) (reads_line depth) (yields_line depth)

theorem ends_lines (depth : Nat) {l m : Lexer} {items : List Item} (hl : l.SameIn .statement)
    (h : (lines depth).leads l items m) : Ends l items m := by
  induction h with
  | done => exact .plain .sourceFile (.skip _) trivial
  | more _ first _ ih => exact ((keepsEnds_line depth).ends hl first).append (ih (reads_line depth first hl).1)

end Reading

/-! ## The whole text -/

/-- What stands side by side in a program keeps to its `end`. -/
theorem Place.precedes_of_contents {q a b : Place} (h : q.tree.KeepsEnds) (hkind : q.kind = .programDefinition)
    {before after : List Place} (hcontents : q.contents = before ++ a :: b :: after) : a.tree.Precedes b.tree := by
  have hchain := (h.program hkind).1
  rw [← map_tree_contents, hcontents, List.map_append, List.map_cons, List.map_cons] at hchain
  exact (List.isChain_append_cons_cons.mp hchain).2.1

namespace Parse

def strayEnds (p : Parse) : List Diagnostic := p.diagnostics.filter (·.message == "`end` without an open program")

section
variable {text : List Char} {items : List Item} {l : Lexer}
  (h : (Reading.lines text.length).leads (.ofText text) items l) (hsize : byteSize text ≤ maxOffset)
include h hsize

theorem keepsEnds_of_element {q : Place} (hq : q ∈ (ofText text).root.elements) :
    q = (ofText text).root ∨ q.tree.KeepsEnds := by
  rcases Place.mem_elements_iff.mp hq with rfl | ⟨c, hc, hq⟩
  · exact .inl rfl
  · refine .inr (Place.all_elements ?_ q hq).self
    have hchild : c.tree ∈ (ofText text).root.tree.children := Place.tree_mem_children hc
    rcases child_cases h hsize hchild with ht | ⟨kind, word, ht⟩
    · exact (Reading.ends_lines text.length (.inl rfl) h).kept c.tree ht
    · rw [ht]
      exact Tree.keepsEnds_leaf _ _

theorem exists_of_strayEnd {d : Diagnostic} (hd : d ∈ (ofText text).strayEnds) :
    ∃ e ∈ (ofText text).root.elements, e.tree.isStrayEnd = true ∧ headSpan e.region = d.span := by
  have hfound : (ofText text).strayEnds.map Diagnostic.span =
      ((Item.findingsAll items).filter Finding.isStrayEnd).map Finding.span := spans_of_problem h hsize .strayEnd
  have hspan : d.span ∈ (ofText text).strayEnds.map Diagnostic.span := List.mem_map_of_mem hd
  rw [hfound, (Reading.ends_lines text.length (.inl rfl) h).found] at hspan
  obtain ⟨r, hr, hhead⟩ := List.mem_map.mp hspan
  obtain ⟨hr, hstray⟩ := List.mem_filter.mp hr
  obtain ⟨e, he, rfl⟩ := exists_of_region h hsize hr
  exact ⟨e, he, hstray, hhead⟩

/-- The problem node of an `end` that closes nothing stands in the file, or behind a block comment in a program. -/
theorem parent_of_strayEnd {e : Place} (he : e ∈ (ofText text).root.elements) (hstray : e.tree.isStrayEnd = true) :
    .programDefinition ∉ e.parentKinds ∨
      ∃ q before comment after, e.parent? = some q ∧ q.kind = .programDefinition ∧
        q.contents = before ++ comment :: e :: after ∧ comment.tree.IsBlockComment := by
  have hkind : e.kind = .error := Tree.kind_of_strayEnd hstray
  rcases Place.eq_or_child he with rfl | ⟨q, hq, i, hi⟩
  · rw [Place.kind, tree_of_lines h hsize] at hkind
    cases hkind
  rcases keepsEnds_of_element h hsize (Place.mem_nodes_iff.mp hq).1 with rfl | hkept
  · left
    rw [Place.parentKinds_of_child hi, Place.kind, tree_of_lines h hsize]
    exact fun hmem => by cases List.mem_singleton.mp hmem
  have hchild := List.mem_of_getElem? hi
  have hprogram : q.kind = .programDefinition := by
    by_contra hne
    have hnot := hkept.other hne e.tree (Place.tree_mem_children hchild)
    rw [hnot] at hstray
    cases hstray
  have hmem : e ∈ q.contents := List.mem_filter.mpr ⟨hchild, by rw [hkind]; rfl⟩
  obtain ⟨before, after, hcontents⟩ := List.append_of_mem hmem
  right
  rcases List.eq_nil_or_concat before with rfl | ⟨front, comment, rfl⟩
  · have hhead := (hkept.program hprogram).2 e.tree (by rw [← Place.map_tree_contents, hcontents]; rfl)
    rw [hhead] at hstray
    cases hstray
  · rw [List.concat_eq_append, List.append_assoc] at hcontents
    exact ⟨q, front, comment, after, (Place.parent_of_child hi).1, hprogram, hcontents,
      (Place.precedes_of_contents hkept hprogram hcontents).comment hstray⟩

end

/-- An `end` closes the innermost program where it begins a line, and one that is said to close nothing lies in no
program, or stands there behind a block comment of its line. -/
theorem end_closes_or_follows_comment (text : List Char) (hsize : byteSize text ≤ maxOffset) :
    let p := ofText text
    (∀ d ∈ p.strayEnds, ∃ leaf ∈ p.root.leaves, leaf.span = d.span ∧ leaf.kind = .endKeyword ∧
      leaf.text = "end".toList ∧ (.programDefinition ∉ leaf.parentKinds ∨
        ∃ e q before comment after, leaf.parent? = some e ∧ e.kind = .error ∧ e.parent? = some q ∧
          q.kind = .programDefinition ∧ q.contents = before ++ comment :: e :: after ∧
            comment.tree.IsBlockComment)) ∧
      ∀ q ∈ p.root.nodes, q.kind = .programDefinition → ∀ before a b after,
        q.contents = before ++ a :: b :: after → a.kind = .newline → b.tree.firstText? = some "end".toList →
          b.isLeaf = true ∧ b.kind = .endKeyword := by
  obtain ⟨items, l, h⟩ := Reading.exists_lines text
  intro p
  refine ⟨fun d hd => ?_, fun q hq hkind before a b after hcontents hnewline hfirst => ?_⟩
  · obtain ⟨e, he, hstray, hspan⟩ := exists_of_strayEnd h hsize hd
    obtain ⟨_, hchildren⟩ := Tree.children_of_strayEnd hstray
    obtain ⟨leaf, hleaf, htree, hhead⟩ := Place.head_of_children hchildren
    have hkind : e.kind = .error := Tree.kind_of_strayEnd hstray
    have hbelow : leaf ∈ e.elements := Place.mem_elements_of_child (List.mem_of_getElem? hleaf)
    have hmem : leaf ∈ p.root.leaves :=
      Place.mem_leaves_iff.mpr ⟨Place.mem_elements_trans he hbelow, by rw [Place.isLeaf, htree]; rfl⟩
    refine ⟨leaf, hmem, hhead.trans hspan, by rw [Place.kind, htree]; rfl, by rw [Place.text, htree]; rfl, ?_⟩
    rcases parent_of_strayEnd h hsize he hstray with hnone | ⟨q, before, comment, after, hparent, hq⟩
    · left
      rw [Place.parentKinds_of_child hleaf, hkind, List.mem_cons]
      exact fun hmem => hmem.elim (fun he => by cases he) hnone
    · exact .inr ⟨e, q, before, comment, after, (Place.parent_of_child hleaf).1, hkind, hparent, hq⟩
  · rcases keepsEnds_of_element h hsize (Place.mem_nodes_iff.mp hq).1 with rfl | hkept
    · rw [Place.kind, tree_of_lines h hsize] at hkind
      cases hkind
    · exact (Place.precedes_of_contents hkept hkind hcontents).newline hnewline hfirst

theorem end_closes_or_follows_comment_nested :
    let text := "end\nprogram p\n/* a */ end\nprogram q\nend\nend\n".toList
    let p := ofText text
    byteSize text ≤ maxOffset ∧
    (∀ d ∈ p.strayEnds, ∃ leaf ∈ p.root.leaves, leaf.span = d.span ∧ leaf.kind = .endKeyword ∧
      leaf.text = "end".toList ∧ (.programDefinition ∉ leaf.parentKinds ∨
        ∃ e q before comment after, leaf.parent? = some e ∧ e.kind = .error ∧ e.parent? = some q ∧
          q.kind = .programDefinition ∧ q.contents = before ++ comment :: e :: after ∧
            comment.tree.IsBlockComment)) ∧
      ∀ q ∈ p.root.nodes, q.kind = .programDefinition → ∀ before a b after,
        q.contents = before ++ a :: b :: after → a.kind = .newline → b.tree.firstText? = some "end".toList →
          b.isLeaf = true ∧ b.kind = .endKeyword := by
  have hsize : byteSize "end\nprogram p\n/* a */ end\nprogram q\nend\nend\n".toList ≤ maxOffset := by decide
  exact ⟨hsize, end_closes_or_follows_comment _ hsize⟩

/-- The `end` of a program is said to close nothing, and the program to lack it. -/
theorem stray_end_in_program :
    let p := ofText "program p\n/* c */ end\n".toList
    ∃ d ∈ p.strayEnds, ∃ leaf ∈ p.root.leaves, leaf.span = d.span ∧ leaf.text = "end".toList ∧
      .programDefinition ∈ leaf.parentKinds := by
  have hspans : (ofText "program p\n/* c */ end\n".toList).strayEnds.map Diagnostic.span = [⟨18, 21⟩] := by
    decide +kernel
  have hleaves : ((ofText "program p\n/* c */ end\n".toList).root.leaves.filter fun leaf =>
      leaf.span == ⟨18, 21⟩ && leaf.text == "end".toList && leaf.parentKinds.contains .programDefinition) ≠ [] := by
    decide +kernel
  obtain ⟨d, hd, hspan⟩ := List.mem_map.mp (hspans ▸ List.mem_singleton_self (Span.mk 18 21))
  obtain ⟨leaf, hleaf⟩ := List.exists_mem_of_ne_nil _ hleaves
  obtain ⟨hleaf, hchoice⟩ := List.mem_filter.mp hleaf
  simp only [Bool.and_eq_true, beq_iff_eq, List.contains_iff_mem] at hchoice
  obtain ⟨⟨hstart, htext⟩, hparents⟩ := hchoice
  exact ⟨d, hd, leaf, hleaf, hstart.trans hspan.symm, htext, hparents⟩

end Parse

end Dofile
