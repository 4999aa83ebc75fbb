import Dofile.Proofs.Order
import Dofile.Proofs.Plain

/-!
# Programs and their ends

A program has its `end`, behind which only comments stand in it, or it goes on to the end of the
text. Programs of the second sort lie within each other, and what is found of them comes from the
inside out.
-/

namespace Dofile

open Reading (trailingComments argument_of_comment isComment_of_atTrailingComment)

namespace Tree

def isOpenProgram : Tree → Bool
  | .node .programDefinition ts => ts.all (·.kind != .endKeyword)
  | _ => false

def IsTrailing (t : Tree) : Prop :=
  t.kind = .whitespace ∨ t.isLeaf = true ∧ t.kind.isComment = true ∨
    ∃ text, t = .node .error [.leaf .blockComment text]

def EndsOnce (t : Tree) : Prop :=
  ∃ before text after, t.children = before ++ .leaf .endKeyword text :: after ∧
    (∀ c ∈ before, c.kind ≠ .endKeyword) ∧ ∀ c ∈ after, c.IsTrailing

def BeginsProgram (t : Tree) : Prop := ∃ text ts, t.children = .leaf .programKeyword text :: ts

structure KeepsPrograms (t : Tree) : Prop where
  program : t.isLeaf = false → t.kind = .programDefinition →
    t.BeginsProgram ∧ (t.isOpenProgram = true ∨ t.EndsOnce)
  alone : ∀ c ∈ t.children, c.isOpenProgram = true → t = .node .error [c]

theorem keepsPrograms_leaf (kind : Kind) (text : List Char) : (leaf kind text).KeepsPrograms :=
  ⟨fun h => (by cases h), fun _ hc => (by cases hc)⟩

theorem not_openProgram_of_kind {t : Tree} (h : t.kind ≠ .programDefinition) : t.isOpenProgram = false := by
  unfold isOpenProgram
  split
  · exact absurd rfl h
  · rfl

mutual

theorem All.imp {P Q : Tree → Prop} (h : ∀ t : Tree, t.All P → Q t) : ∀ t : Tree, t.All P → t.All Q
  | .leaf kind text, ht => h (.leaf kind text) ht
  | .node kind ts, ht => ⟨h (.node kind ts) ht, AllOf.imp h ts ht.2⟩

theorem AllOf.imp {P Q : Tree → Prop} (h : ∀ t : Tree, t.All P → Q t) : ∀ ts : List Tree, AllOf P ts → AllOf Q ts
  | [], _ => trivial
  | t :: ts, hts => ⟨All.imp h t hts.1, AllOf.imp h ts hts.2⟩

end

theorem IsPlain.not_open {t : Tree} (h : t.IsPlain) : t.isOpenProgram = false := by
  cases t with
  | leaf => rfl
  | node kind ts => exact not_openProgram_of_kind h.1

theorem keepsPrograms_of_plain {t : Tree} (h : t.All IsPlain) : t.KeepsPrograms where
  program hleaf hkind := by
    cases t with
    | leaf => cases hleaf
    | node kind ts => exact absurd hkind h.self.1
  alone c hc hopen := by
    cases t with
    | leaf => cases hc
    | node kind ts =>
      have := ((allOf_iff ts).mp h.2 c hc).self.not_open
      rw [this] at hopen
      cases hopen

end Tree

def headSpan (r : Tree × Span) : Span :=
  match r.1.children with
  | [] => .point r.2.start
  | c :: _ => ⟨r.2.start, r.2.start + c.size⟩

theorem Place.head_of_children {q : Place} {t : Tree} {ts : List Tree} (h : q.tree.children = t :: ts) :
    ∃ c, q.children[0]? = some c ∧ c.tree = t ∧ c.span = headSpan q.region := by
  obtain ⟨c, cs, hplaces, rfl, -⟩ := List.map_eq_cons_iff.mp ((map_tree_children_eq q).trans h)
  have hhead : q.children[0]? = some c := by rw [hplaces]; rfl
  obtain ⟨_, _, -, -, hstart, -⟩ := child_eq hhead
  have hstart : c.start = q.start := hstart
  refine ⟨c, hhead, rfl, ?_⟩
  simp only [headSpan, region, h, span, stop, hstart]

def Finding.missesProgramEnd (f : Finding) : Bool := f.problem == .missingProgramEnd

open Item in
/-- Items with the keywords of the programs in them that lack their ends, from the outside in. -/
structure Programs (opens : List Span) (l : Lexer) (items : List Item) (m : Lexer) : Prop where
  account : Account l items m
  nodes : ((regions l items).filter (·.1.isOpenProgram)).map headSpan = opens
  found : ((findingsAll items).filter Finding.missesProgramEnd).map Finding.span = opens.reverse
  behind : ∀ s ∈ opens, l.offset ≤ s.start
  sorted : opens.Pairwise (·.start < ·.start)
  atEnd : opens ≠ [] → m.kind = .eof
  reach : ∀ r ∈ regions l items, r.1.isOpenProgram = true → r.2.stop = m.offset
  kept : ∀ t ∈ trees items, t.isOpenProgram = false ∧ t.All Tree.KeepsPrograms

namespace Programs

variable {opens more : List Span} {l m m' : Lexer} {is js : List Item}

theorem plain (parent : Kind) (h : Account l is m) (hplain : Item.PlainAll parent is) : Programs [] l is m := by
  have htrees : ∀ t ∈ Item.trees is, t.All Tree.IsPlain := fun t ht => (hplain.trees is t ht).1
  have hopen : ∀ r ∈ Item.regions l is, r.1.isOpenProgram = false := fun r hr =>
    (Item.regions_all htrees r hr).not_open
  refine ⟨h, ?_, ?_, by simp, .nil, fun hn => absurd rfl hn, fun r hr ho => ?_, fun t ht => ?_⟩
  · rw [List.filter_eq_nil_iff.mpr fun r hr => by simp [hopen r hr]]
    rfl
  · have hfound : ∀ f ∈ Item.findingsAll is, f.missesProgramEnd = false := fun f hf => by
      simpa [Finding.missesProgramEnd] using fun e : f.problem = .missingProgramEnd =>
        hplain.findings is f hf (by rw [e]; decide)
    rw [List.filter_eq_nil_iff.mpr fun f hf => by simp [hfound f hf]]
    rfl
  · rw [hopen r hr] at ho
    cases ho
  · exact ⟨(htrees t ht).self.not_open, Tree.All.imp (fun _ => Tree.keepsPrograms_of_plain) t (htrees t ht)⟩

/-- Behind a program without its `end` comes nothing, for it goes on to the end of the text. -/
theorem append (h : Programs opens l is m) (h' : Programs more m js m')
    (hstop : opens ≠ [] → m.kind = .eof → js = [] ∧ m' = m) : Programs (opens ++ more) l (is ++ js) m' := by
  by_cases hopens : opens = []
  · subst hopens
    have hnone : ∀ r ∈ Item.regions l is, r.1.isOpenProgram = false := by
      have := List.filter_eq_nil_iff.mp (List.map_eq_nil_iff.mp h.nodes)
      intro r hr
      simpa using this r hr
    refine ⟨h.account.append h'.account, ?_, ?_, fun s hs => ?_, h'.sorted, h'.atEnd, fun r hr ho => ?_,
      fun t ht => ?_⟩
    · rw [Item.regions_append h.account, List.filter_append, List.map_append, h.nodes, h'.nodes]
    · rw [Item.findingsAll_append, List.filter_append, List.map_append, h.found, h'.found]
      rfl
    · exact Nat.le_trans h.account.offset_le (h'.behind s hs)
    · rw [Item.regions_append h.account, List.mem_append] at hr
      rcases hr with hr | hr
      · rw [hnone r hr] at ho
        cases ho
      · exact h'.reach r hr ho
    · exact Item.forall_trees_append h.kept h'.kept t ht
  · obtain ⟨rfl, rfl⟩ := hstop hopens (h.atEnd hopens)
    obtain rfl : more = [] := h'.nodes.symm
    rwa [List.append_nil, List.append_nil]

theorem nil (l : Lexer) : Programs [] l [] l := plain .error (.skip l) trivial

/-- Items that hold no program may stand before any others. -/
theorem before (h : Programs [] l is m) (h' : Programs more m js m') : Programs more l (is ++ js) m' :=
  h.append h' fun hn => absurd rfl hn

theorem found_other {f : Finding} (hf : f.span.start ≤ f.span.stop) (hp : f.problem ≠ .missingProgramEnd) :
    Programs [] l [.found f] l := by
  have hmisses : f.missesProgramEnd = false := by simpa [Finding.missesProgramEnd] using hp
  refine ⟨.found l hf, rfl, ?_, by simp, .nil, fun hn => absurd rfl hn, fun r hr => ?_, fun t ht => ?_⟩
  · simp [Item.findingsAll, Item.findings, hmisses]
  · cases hr
  · cases ht

theorem kept_node (h : Programs opens l is m) {kind : Kind} (hprogram : kind = .programDefinition →
      (Tree.node kind (Script.waiting (Item.scriptsAll is))).BeginsProgram ∧
        ((Tree.node kind (Script.waiting (Item.scriptsAll is))).isOpenProgram = true ∨
          (Tree.node kind (Script.waiting (Item.scriptsAll is))).EndsOnce)) :
    (Tree.node kind (Script.waiting (Item.scriptsAll is))).All Tree.KeepsPrograms := by
  have hspaced := Item.spaced_waiting is
  refine Tree.all_node ⟨fun _ => hprogram, hspaced.forall (fun c hc hopen => ?_) nofun⟩
    (hspaced.forall (fun t ht => (h.kept t ht).2) (Tree.keepsPrograms_leaf _))
  rw [(h.kept c hc).1] at hopen
  cases hopen

theorem node (h : Programs opens l is m) {kind : Kind} (hk : kind.isNode = true)
    (hprogram : kind = .programDefinition →
      (Tree.node kind (Script.waiting (Item.scriptsAll is))).BeginsProgram ∧
        (Tree.node kind (Script.waiting (Item.scriptsAll is))).EndsOnce) :
    Programs opens l [.node kind is] m := by
  have hopen : (Tree.node kind (Script.waiting (Item.scriptsAll is))).isOpenProgram = false := by
    by_cases hkind : kind = .programDefinition
    · obtain ⟨-, before, text, after, hchildren, -⟩ := hprogram hkind
      subst hkind
      simp only [Tree.children] at hchildren
      simp [Tree.isOpenProgram, hchildren, Tree.kind]
    · exact Tree.not_openProgram_of_kind hkind
  have hregions := Item.regions_node h.account (ne_whitespace_of_isNode hk)
  refine ⟨.node hk h.account, ?_, ?_, h.behind, h.sorted, h.atEnd, fun r hr ho => ?_, fun t ht => ?_⟩
  · rw [hregions, List.filter_cons_of_neg (by simp [hopen]), h.nodes]
  · simpa [Item.findingsAll, Item.findings] using h.found
  · rw [hregions, List.mem_cons] at hr
    rcases hr with rfl | hr
    · rw [hopen] at ho
    · exact h.reach r hr ho
  · rw [Item.trees_node, List.mem_singleton] at ht
    subst ht
    exact ⟨hopen, h.kept_node fun hkind => (hprogram hkind).imp_right .inr⟩

/-- A program without its `end`. Its keyword comes before those of all that lack theirs within it,
and it is found behind them. -/
theorem opened {rest : List Item} (hl : l.IsWord) (h : Programs opens (l.next .statement) rest m)
    (hm : m.kind = .eof) (hends : ∀ t ∈ Item.trees rest, t.kind ≠ .endKeyword) :
    Programs (l.ahead.span :: opens) l
      [.enclosed .programDefinition (.token l .programKeyword :: rest ++ [.found ⟨.missingProgramEnd, l.ahead.span⟩])]
      m := by
  have hfirst : Programs [] l [.token l .programKeyword] (l.next .statement) :=
    plain .programDefinition (.word hl (by decide) _) (Item.plainAll_singleton.mpr fun _ => by decide)
  have hinside : Programs opens l (.token l .programKeyword :: rest) m := hfirst.before h
  have hopen : (Tree.node .programDefinition
      (Script.waiting (Item.scriptsAll (.token l .programKeyword :: rest)))).isOpenProgram = true := by
    simp only [Tree.isOpenProgram, List.all_eq_true, bne_iff_ne]
    intro t ht
    rcases Script.mem_waiting ht with ht | ⟨blanks, rfl⟩
    · change t ∈ .leaf .programKeyword l.ahead.text :: Item.trees rest at ht
      rcases List.mem_cons.mp ht with rfl | ht
      · exact fun he => by cases he
      · exact hends t ht
    · exact fun he => by cases he
  have hregions := Item.regions_givenUp hinside.account (show Kind.programDefinition ≠ .whitespace by decide)
    ⟨.missingProgramEnd, l.ahead.span⟩
  have hlt : l.ahead.start < (l.next .statement).offset := Lexer.start_lt_stop hl.ne_eof
  have hle : l.offset ≤ l.ahead.start := Nat.le_add_right ..
  refine ⟨?_, ?_, ?_, fun s hs => ?_, ?_, fun _ => hm, fun r hr ho => ?_, fun t ht => ?_⟩
  · exact .enclosed (by decide) (hinside.account.append (.found m (Nat.le_add_right ..)))
  · rw [hregions, List.filter_cons_of_neg (by simp [Tree.isOpenProgram]), List.filter_cons_of_pos (by exact hopen),
      List.map_cons, hinside.nodes]
    rfl
  · rw [Item.findingsAll_givenUp, List.filter_append, List.map_append, hinside.found]
    simp [Finding.missesProgramEnd]
  · rcases List.mem_cons.mp hs with rfl | hs
    · exact hle
    · exact hinside.behind s hs
  · exact .cons (fun s hs => Nat.lt_of_lt_of_le hlt (h.behind s hs)) h.sorted
  · rw [hregions, List.mem_cons, List.mem_cons] at hr
    rcases hr with rfl | rfl | hr
    · cases ho
    · rfl
    · exact hinside.reach r hr ho
  · rw [Item.trees_givenUp, List.mem_singleton] at ht
    subst ht
    refine ⟨rfl, ⟨fun _ hk => (by cases hk), fun c hc _ => ?_⟩,
      hinside.kept_node fun _ => ⟨⟨_, _, rfl⟩, .inl hopen⟩, trivial⟩
    rw [List.mem_singleton.mp hc]

end Programs

/-! ## Programs with their ends -/

theorem trailing_of_comments {l m : Lexer} {items : List Item} (h : trailingComments.leads l items m) :
    ∀ t ∈ Item.trees items, t.IsTrailing := by
  induction h with
  | done => simp [Item.trees, Item.scriptsAll]
  | @more l _ _ is js hs first _ ih =>
    intro t ht
    rw [Item.trees_append, List.mem_append] at ht
    refine ht.elim (fun ht => ?_) (ih t)
    have hcomment := isComment_of_atTrailingComment (Classical.not_not.mp hs)
    rcases argument_of_comment hcomment first with rfl | ⟨hblock, rfl⟩
    · rw [Lexer.item, Item.trees_token, List.mem_singleton] at ht
      subst ht
      exact .inr (.inl ⟨rfl, hcomment⟩)
    · rw [Item.trees_node, List.mem_singleton] at ht
      refine .inr (.inr ⟨l.ahead.text, ?_⟩)
      rw [ht, Lexer.item, hblock]
      rfl

theorem endsOnce {kind : Kind} {l b m : Lexer} {is comments : List Item}
    (h : Account l (is ++ .token b .endKeyword :: comments) m) (hbefore : ∀ t ∈ Item.trees is, t.kind ≠ .endKeyword)
    (hafter : ∀ t ∈ Item.trees comments, t.IsTrailing) :
    (Tree.node kind (Script.waiting (Item.scriptsAll (is ++ .token b .endKeyword :: comments)))).EndsOnce := by
  have hrow : (Script.waiting (Item.scriptsAll (is ++ .token b .endKeyword :: comments))).filter
      (·.kind != .whitespace) = Item.trees is ++ .leaf .endKeyword b.ahead.text :: Item.trees comments := by
    rw [Script.filter_waiting h.ne_whitespace]
    exact Item.trees_append is _
  obtain ⟨first, second, hchildren, hfirst, hsecond⟩ := List.filter_eq_append_iff.mp hrow
  obtain ⟨blanks, after, rfl, hblanks, -, hlast⟩ := List.filter_eq_cons_iff.mp hsecond
  refine ⟨first ++ blanks, _, after, by rw [Tree.children, hchildren, List.append_assoc], fun c hc => ?_,
    fun c hc => ?_⟩
  · by_cases hspace : c.kind = .whitespace
    · rw [hspace]
      decide
    · have hsolid : (c.kind != .whitespace) = true := by simpa using hspace
      rcases List.mem_append.mp hc with hc | hc
      · exact hbefore c (hfirst ▸ List.mem_filter.mpr ⟨hc, hsolid⟩)
      · exact absurd hsolid (hblanks c hc)
  · by_cases hspace : c.kind = .whitespace
    · exact .inl hspace
    · exact hafter c (hlast ▸ List.mem_filter.mpr ⟨hc, by simpa using hspace⟩)

/-! ## Readings -/

namespace Reading

def KeepsPrograms (R : Reading) : Prop := ∀ ⦃l items m⦄, R.leads l items m → ∃ opens, Programs opens l items m

def StopsAtEnd (R : Reading) : Prop := ∀ ⦃l items m⦄, l.kind = .eof → R.leads l items m → items = [] ∧ m = l

section
variable {R S : Reading}

theorem Plain.keepsPrograms (h : R.Plain .sourceFile) : R.KeepsPrograms := fun _ _ _ hR =>
  ⟨[], .plain .sourceFile (R.account hR) (h hR)⟩

theorem KeepsPrograms.seq (h : R.KeepsPrograms) (h' : S.KeepsPrograms) (hstop : S.StopsAtEnd) :
    (R.seq S).KeepsPrograms := by
  intro _ _ _ hRS
  obtain ⟨is, m, js, hR, hS, rfl⟩ := hRS
  obtain ⟨opens, his⟩ := h hR
  obtain ⟨more, hjs⟩ := h' hS
  exact ⟨opens ++ more, his.append hjs fun _ hm => hstop hm hS⟩

theorem KeepsPrograms.when (h : R.KeepsPrograms) (c : Lexer → Prop) : (R.when c).KeepsPrograms :=
  fun _ _ _ hR => h hR.2

theorem KeepsPrograms.either (h : R.KeepsPrograms) (h' : S.KeepsPrograms) (c : Lexer → Prop) :
    (either c R S).KeepsPrograms := fun _ _ _ hRS => hRS.elim (h ·.2) (h' ·.2)

theorem stopsAtEnd_many {stops : Lexer → Prop} (hs : ∀ l : Lexer, l.kind = .eof → stops l) :
    (many stops R).StopsAtEnd := by
  intro l items m hl hmany
  cases hmany with
  | done => exact ⟨rfl, rfl⟩
  | more hne => exact absurd (hs l hl) hne

theorem KeepsPrograms.many (h : R.KeepsPrograms) {stops : Lexer → Prop}
    (hs : ∀ l : Lexer, l.kind = .eof → stops l) : (many stops R).KeepsPrograms := by
  intro l items m hmany
  induction hmany with
  | done => exact ⟨[], .nil _⟩
  | more _ first rest ih =>
    obtain ⟨opens, his⟩ := h first
    obtain ⟨more, hjs⟩ := ih
    exact ⟨opens ++ more, his.append hjs fun _ hm => stopsAtEnd_many hs hm rest⟩

theorem StopsAtEnd.seq (h : R.StopsAtEnd) (h' : S.StopsAtEnd) : (R.seq S).StopsAtEnd := by
  intro l items m hl hRS
  obtain ⟨is, k, js, hR, hS, rfl⟩ := hRS
  obtain ⟨rfl, rfl⟩ := h hl hR
  obtain ⟨rfl, rfl⟩ := h' hl hS
  exact ⟨rfl, rfl⟩

/-- Where something is done only short of the end of a line, nothing is done at the end of the text. -/
theorem stopsAtEnd_line (R : Reading) : (Reading.either Lexer.EndsLine skip R).StopsAtEnd := by
  intro l items m hl h
  rcases h with ⟨-, h⟩ | ⟨hne, -⟩
  · exact h
  · exact absurd (.inr hl) hne

theorem stopsAtEnd_endOfLine : endOfLine.StopsAtEnd := by
  have hcomments : trailingComments.StopsAtEnd := stopsAtEnd_many fun l hl h => h.ne_eof hl
  have hbreak : (eat .newline .statement).StopsAtEnd := by
    intro l items m hl h
    rcases h with ⟨hn, -⟩ | ⟨-, h⟩
    · rw [hl] at hn
      cases hn
    · exact h
  exact hcomments.seq ((stopsAtEnd_line _).seq hbreak)

end

theorem keepsPrograms_strayEnd : strayEnd.KeepsPrograms := by
  intro l items m h
  obtain ⟨_, ⟨_, k, _, ⟨rfl, rfl⟩, ⟨_, _, comments, ⟨hword, rfl, rfl⟩, hcomments, rfl⟩, rfl⟩, rfl⟩ := h
  have hfound : Programs [] k [.found ⟨.strayEnd, k.ahead.span⟩] k :=
    .found_other (Nat.le_add_right ..) fun h => by cases h
  have hend : Programs [] k [.token k .endKeyword] (k.next .statement) :=
    .plain .mataBlock (.word hword (by decide) .statement) (Item.plainAll_singleton.mpr fun hne => absurd rfl hne)
  have htrailing := Programs.plain .error (trailingComments.account hcomments) (plain_trailingComments hcomments)
  exact ⟨[], (hfound.before (hend.before htrailing)).node Kind.isNode_error fun h => by cases h⟩

section
variable {line : Reading} (h : line.KeepsPrograms) (hyields : YieldsLines line)
include h hyields

theorem programs_of_opening {l m : Lexer} {items : List Item}
    (hR : (programHead.seq (many ProgramEnds line)).leads l items m) :
    ∃ opens rest, l.IsWord ∧ items = .token l .programKeyword :: rest ∧ ProgramEnds m ∧
      Programs opens (l.next .statement) rest m ∧ ∀ t ∈ Item.trees rest, t.kind ≠ .endKeyword := by
  have hplain : ((either (·.IsWordOf ["define"]) (word .defineKeyword .statement) skip).seq
      ((name .expectedProgramName).seq arguments)).Plain .programDefinition :=
    ((plain_word (by decide) _ _).either plain_skip _).seq ((plain_name (by decide)).seq plain_arguments)
  obtain ⟨_, k, body, ⟨_, _, tail, ⟨hword, rfl, rfl⟩, htail, rfl⟩, hmany, rfl⟩ := hR
  obtain ⟨opens, hbody⟩ := h.many (fun _ he => .inl he) hmany
  have hopening := Programs.plain .programDefinition (Reading.account _ htail) (hplain htail)
  refine ⟨opens, tail ++ body, hword, rfl, stops_of_many hmany, hopening.before hbody, fun t ht he => ?_⟩
  rw [Item.trees_append, List.mem_append] at ht
  rcases ht with ht | ht
  · exact ((hplain htail).trees tail t ht).2 (by decide) he
  · have hitems : Yields (fun _ => True) (many ProgramEnds line) Form.body :=
      (hyields.body.on fun _ _ => trivial).many _
    have hitem : Form.IsBodyItem t := (hitems trivial hmany).mem t ht
    rcases hitem with hk | hk | hk | hk <;> rw [he] at hk <;> cases hk

theorem keepsPrograms_programDefinition : (programDefinition line).KeepsPrograms := by
  intro l items m hR
  rcases hR with ⟨is, ⟨hR, hm⟩, -, rfl⟩ | ⟨_, ⟨is, b, _, ⟨hR, hb⟩, ⟨_, _, comments, ⟨hword, rfl, rfl⟩, hcomments, rfl⟩,
    rfl⟩, rfl⟩
  · obtain ⟨opens, rest, hl, rfl, -, hrest, hends⟩ := programs_of_opening h hyields hR
    exact ⟨_, .opened hl hrest hm hends⟩
  · obtain ⟨opens, rest, hl, rfl, -, hrest, hends⟩ := programs_of_opening h hyields hR
    -- short of the end of the text all programs within have their ends
    obtain rfl : opens = [] := Classical.byContradiction fun hne => hb (hrest.atEnd hne)
    have hkeyword : Programs [] l [.token l .programKeyword] (l.next .statement) :=
      .plain .programDefinition (.word hl (by decide) _) (Item.plainAll_singleton.mpr fun _ => by decide)
    have hend : Programs [] b [.token b .endKeyword] (b.next .statement) :=
      .plain .mataBlock (.word hword (by decide) _) (Item.plainAll_singleton.mpr fun hne => absurd rfl hne)
    have hclose := hend.before
      (Programs.plain .programDefinition (trailingComments.account hcomments) (plain_trailingComments hcomments))
    have hinside := (hkeyword.before hrest).before hclose
    refine ⟨[], hinside.node (by decide) fun _ =>
      ⟨⟨_, _, rfl⟩, endsOnce hinside.account (fun t ht => ?_) (trailing_of_comments hcomments)⟩⟩
    rcases List.mem_cons.mp ht with rfl | ht
    · exact fun he => by cases he
    · exact hends t ht

theorem keepsPrograms_statement : (statement line).KeepsPrograms :=
  plain_comment.keepsPrograms.either (plain_blockClose.keepsPrograms.either
    ((keepsPrograms_programDefinition h hyields).either (plain_mataBlock.keepsPrograms.either
      (plain_macroDefinition.keepsPrograms.either (plain_temporaryDefinition.keepsPrograms.either
        (keepsPrograms_strayEnd.either plain_command.keepsPrograms _) _) _) _) _) _) _

theorem keepsPrograms_lineWith : (lineWith line).KeepsPrograms := by
  have hstatement := (plain_skip.keepsPrograms.either (keepsPrograms_statement h hyields) Lexer.EndsLine).seq
    plain_endOfLine.keepsPrograms stopsAtEnd_endOfLine
  have hline : (fullLine line).KeepsPrograms :=
    (plain_comment.many _).keepsPrograms.seq hstatement ((stopsAtEnd_line _).seq stopsAtEnd_endOfLine)
  exact ((plain_take _).keepsPrograms.either hline _).when _

end

theorem keepsPrograms_line : ∀ depth : Nat, (line depth).KeepsPrograms
  | 0 => fun _ _ _ h => h.elim
  | depth + 1 => keepsPrograms_lineWith (keepsPrograms_line depth) (yields_line depth)

theorem keepsPrograms_lines (depth : Nat) : (lines depth).KeepsPrograms := (keepsPrograms_line depth).many fun _ h => h

end Reading

end Dofile
