import Dofile.Proofs.Constructs
import Dofile.Proofs.Nested

/-!
# Open nodes and what is found of them

A node that lacks its end and the finding that says so belong together: for each there is the
other, they begin at the same place, and a string or a macro reference with a closer of its own
then goes on to the end of its line.
-/

namespace Dofile

def lineStop? (text : List Char) (offset : Nat) : Option Nat :=
  (cutBytes offset text).map fun parts => offset + byteSize (Lexeme.restOfLine parts.2)

theorem restOfLine_append {a b : List Char} (ha : OneLine a) (hb : Lexer.LineDone b) :
    Lexeme.restOfLine (a ++ b) = a := by
  induction a with
  | nil =>
    cases b with
    | nil => rfl
    | cons c b =>
      have hc : isLineBreak c = true := hb
      simp [Lexeme.restOfLine, hc]
  | cons c a ih =>
    have hc := ha c List.mem_cons_self
    have hrest := ih fun d hd => ha d (List.mem_cons_of_mem c hd)
    rw [Lexeme.restOfLine] at hrest ⊢
    rw [List.cons_append, List.takeWhile_cons_of_pos (by rw [hc]; rfl), hrest]

namespace Tree

mutual

theorem oneLine_of_all : ∀ t : Tree, t.All IsInner → OneLine t.text
  | .leaf _ _, h => (h rfl).2
  | .node _ ts, h => oneLine_of_allOf ts h.2

theorem oneLine_of_allOf : ∀ ts : List Tree, AllOf IsInner ts → OneLine (textAll ts)
  | [], _ => oneLine_nil
  | t :: ts, h => (oneLine_of_all t h.1).append (oneLine_of_allOf ts h.2)

end

/-! ## Open nodes -/

def IsOpen (t : Tree) : Prop :=
  match Pair.delimiters? t.kind with
  | some (_, closer) => closer ∉ (t.children.map kind).tail
  | none => t.kind = .globalMacro ∧ .leftBrace ∈ t.children.map kind ∧ .rightBrace ∉ t.children.map kind

theorem not_open_of_kind {t : Tree} (h : t.kind.isDelimited = false) : ¬ t.IsOpen := by
  have hplain : ∀ k : Kind, k.isDelimited = false → Pair.delimiters? k = none ∧ k ≠ .globalMacro := by
    intro k hk
    cases k with
    | doubleString | compoundString | localMacro | globalMacro => cases hk
    | _ => exact ⟨rfl, nofun⟩
  obtain ⟨hnone, hne⟩ := hplain _ h
  intro hopen
  rw [IsOpen, hnone] at hopen
  exact hne hopen.1

theorem map_kind_of_tokens {kinds : List Kind} {ts : List Tree} (h : List.Forall₂ IsToken kinds ts) :
    ts.map kind = kinds := by
  induction h with
  | nil => rfl
  | cons htoken _ ih =>
    obtain ⟨text, rfl, -⟩ := htoken
    rw [List.map_cons, ih]
    rfl

/-- No closer stands in what it closes. -/
theorem closer_not_mem {q : Construct} {ts : List Tree} (h : ∀ u ∈ ts, Nests true (.within q) u) :
    q.closer ∉ ts.map kind := by
  intro hmem
  obtain ⟨u, hu, hcloser⟩ := List.mem_map.mp hmem
  have hholds : q.kind.holds q.closer = false ∧ q.closer ≠ .error := by
    rcases q with _ | ⟨family, _⟩
    · decide
    · cases family <;> exact ⟨rfl, nofun⟩
  rcases (h u hu).holds with hitem | ⟨v, rfl, -⟩
  · rw [hcloser, hholds.1] at hitem
    cases hitem
  · exact hholds.2 hcloser.symm

/-- The kinds of the children of a string or a macro reference with a closer of its own. -/
theorem Nests.kinds_cases {complete : Bool} {outer : Setting} {t : Tree} (h : Nests complete outer t)
    (hk : t.kind.isDelimited = true) (hne : t.kind ≠ .globalMacro) : ∃ (q : Construct) (ks : List Kind), t.kind = q.kind ∧
      t.children.map kind = q.opener :: (ks ++ q.closers complete) ∧ q.closer ∉ ks := by
  obtain ⟨q, _, ts, cs, -, hkind, hchildren, ⟨_, rfl, -⟩, hts, hcs⟩ := h.construct_cases hk hne
  exact ⟨q, ts.map kind, hkind, by rw [hchildren, List.map_cons, List.map_append, map_kind_of_tokens hcs]; rfl,
    closer_not_mem hts⟩

theorem Nests.open_iff {complete : Bool} {outer : Setting} {t : Tree} (h : Nests complete outer t)
    (hk : t.kind.isDelimited = true) : t.IsOpen ↔ complete = false := by
  by_cases hmacro : t.kind = .globalMacro
  · obtain ⟨kinds, hkinds, htokens⟩ := h.reference_cases hmacro
    have hopen : t.IsOpen ↔ .leftBrace ∈ kinds ∧ .rightBrace ∉ kinds := by
      rw [IsOpen, hmacro, map_kind_of_tokens htokens]
      exact and_iff_right rfl
    rw [hopen]
    exact (show ∀ complete, ∀ kinds ∈ Kind.references complete,
      .leftBrace ∈ kinds ∧ .rightBrace ∉ kinds ↔ complete = false by decide) complete kinds hkinds
  · obtain ⟨q, ks, hkind, hkinds, hcloser⟩ := h.kinds_cases hk hmacro
    have hopen : t.IsOpen ↔ q.closer ∉ q.closers complete := by
      rw [IsOpen, hkind, q.delimiters_kind, hkinds]
      simp [hcloser]
    rw [hopen]
    cases complete <;> simp [Construct.closers]

theorem Nests.open_of_incomplete {outer : Setting} {t : Tree} (h : Nests false outer t) : t.IsOpen :=
  (h.open_iff h.isDelimited).mpr rfl

theorem Nests.not_open_of_complete {outer : Setting} {t : Tree} (h : Nests true outer t)
    (hk : t.kind.isDelimited = true) : ¬ t.IsOpen := fun hopen => by cases (h.open_iff hk).mp hopen

end Tree

theorem Kind.ne_comment_of_isDelimited {k : Kind} (h : k.isDelimited = true) : k ≠ .comment :=
  fun e => by rw [e] at h; cases h

/-! ## What a finding tells of -/

namespace Finding

/-- Whether a finding says of a region that its end is missing. The region begins with a leaf of its own. -/
inductive Tells (text : List Char) : Finding → Tree × Span → Prop where
  | construct {q : Construct} {word : List Char} {ts : List Tree} {s : Span} {stop : Nat}
    (hopen : (Tree.node q.kind (.leaf q.opener word :: ts)).IsOpen) (hspan : s.stop = s.start + byteSize word)
    (hline : lineStop? text s.stop = some stop) :
    Tells text ⟨q.problem, s⟩ (.node q.kind (.leaf q.opener word :: ts), ⟨s.start, stop⟩)
  | reference {word : List Char} {ts : List Tree} {s : Span}
    (hopen : (Tree.node .globalMacro (.leaf .dollar word :: ts)).IsOpen) :
    Tells text ⟨.unterminatedGlobalMacro, s⟩ (.node .globalMacro (.leaf .dollar word :: ts), s)
  | comment {word : List Char} {s : Span} :
    Tells text ⟨.unterminatedBlockComment, s⟩ (.node .error [.leaf .blockComment word], s)
  | mata {kind : Kind} {word : List Char} {ts : List Tree} {s : Span} {stop : Nat} :
    Tells text ⟨.missingMataBrace, s⟩ (.node .mataBlock (.leaf kind word :: ts), ⟨s.start, stop⟩)

theorem Tells.start {text : List Char} {f : Finding} {r : Tree × Span} (h : f.Tells text r) :
    r.2.start = f.span.start := by cases h <;> rfl

theorem Tells.first {text : List Char} {f : Finding} {r : Tree × Span} (h : f.Tells text r) :
    ∃ kind word ts, r.1.children = .leaf kind word :: ts := by cases h <;> exact ⟨_, _, _, rfl⟩

theorem Tells.category {text : List Char} {f : Finding} {r : Tree × Span} (h : f.Tells text r) :
    f.problem.category = .unterminated := by
  cases h with
  | @construct q =>
    rcases q with _ | ⟨family, _⟩
    · rfl
    · cases family <;> rfl
  | reference | comment | mata => rfl

theorem Tells.isOpen {text : List Char} {f : Finding} {r : Tree × Span} (h : f.Tells text r)
    (hk : r.1.kind.isDelimited = true) : r.1.IsOpen := by
  cases h with
  | construct hopen | reference hopen => exact hopen
  | comment | mata => cases hk

def MissesName (f : Finding) (r : Tree × Span) : Prop :=
  f.problem = .expectedGlobalMacroName ∧
    r.1 = .node .globalMacro [.leaf .dollar ['$'], .leaf .leftBrace ['{'], .leaf .rightBrace ['}']] ∧
    f.span = ⟨r.2.start + 2, r.2.start + 3⟩

end Finding

def Finding.OfComment (found : List Finding) (r : Tree × Span) : Prop :=
  (∃ kind word, r.1 = .node .comment [.leaf kind word]) ∨
    (∃ word, r.1 = .node .comment [.node .error [.leaf .blockComment word]]) ∧ ⟨.unterminatedBlockComment, r.2⟩ ∈ found

structure Reported (text : List Char) (regions : List (Tree × Span)) (found : List Finding) : Prop where
  given : ∀ r ∈ regions, r.1.IsOpen → ∃ f ∈ found, f.Tells text r
  told : ∀ f ∈ found, f.problem.category = .unterminated → ∃ r ∈ regions, f.Tells text r
  nameless : ∀ f ∈ found, f.problem = .expectedGlobalMacroName → ∃ r ∈ regions, f.MissesName r
  comments : ∀ r ∈ regions, r.1.kind = .comment → Finding.OfComment found r

namespace Reported

variable {text : List Char} {rs ss : List (Tree × Span)} {fs gs : List Finding}

theorem nil : Reported text [] [] := ⟨by simp, by simp, by simp, by simp⟩

theorem append (h : Reported text rs fs) (h' : Reported text ss gs) : Reported text (rs ++ ss) (fs ++ gs) where
  given r hr hopen := by
    rcases List.mem_append.mp hr with hr | hr
    · obtain ⟨f, hf, htells⟩ := h.given r hr hopen
      exact ⟨f, List.mem_append_left _ hf, htells⟩
    · obtain ⟨f, hf, htells⟩ := h'.given r hr hopen
      exact ⟨f, List.mem_append_right _ hf, htells⟩
  told f hf hproblem := by
    rcases List.mem_append.mp hf with hf | hf
    · obtain ⟨r, hr, htells⟩ := h.told f hf hproblem
      exact ⟨r, List.mem_append_left _ hr, htells⟩
    · obtain ⟨r, hr, htells⟩ := h'.told f hf hproblem
      exact ⟨r, List.mem_append_right _ hr, htells⟩
  nameless f hf hproblem := by
    rcases List.mem_append.mp hf with hf | hf
    · obtain ⟨r, hr, hname⟩ := h.nameless f hf hproblem
      exact ⟨r, List.mem_append_left _ hr, hname⟩
    · obtain ⟨r, hr, hname⟩ := h'.nameless f hf hproblem
      exact ⟨r, List.mem_append_right _ hr, hname⟩
  comments r hr hkind := by
    rcases List.mem_append.mp hr with hr | hr
    · exact (h.comments r hr hkind).imp_right fun ⟨hword, hf⟩ => ⟨hword, List.mem_append_left _ hf⟩
    · exact (h'.comments r hr hkind).imp_right fun ⟨hword, hf⟩ => ⟨hword, List.mem_append_right _ hf⟩

/-- The order of what is reported does not matter. -/
theorem perm (h : Reported text rs fs) (hr : rs.Perm ss) (hf : fs.Perm gs) : Reported text ss gs where
  given r hmem hopen := by
    obtain ⟨f, hfound, htells⟩ := h.given r (hr.mem_iff.mpr hmem) hopen
    exact ⟨f, hf.mem_iff.mp hfound, htells⟩
  told f hmem hproblem := by
    obtain ⟨r, hregion, htells⟩ := h.told f (hf.mem_iff.mpr hmem) hproblem
    exact ⟨r, hr.mem_iff.mp hregion, htells⟩
  nameless f hmem hproblem := by
    obtain ⟨r, hregion, hname⟩ := h.nameless f (hf.mem_iff.mpr hmem) hproblem
    exact ⟨r, hr.mem_iff.mp hregion, hname⟩
  comments r hmem hkind := (h.comments r (hr.mem_iff.mpr hmem) hkind).imp_right fun ⟨hword, hfound⟩ =>
    ⟨hword, hf.mem_iff.mp hfound⟩

variable {r : Tree × Span} {f : Finding}

theorem plain (hopen : ¬ r.1.IsOpen) (hk : r.1.kind ≠ .comment) : Reported text [r] [] where
  given s hs hs' := absurd hs' (List.mem_singleton.mp hs ▸ hopen)
  told f hf := by cases hf
  nameless f hf := by cases hf
  comments s hs hs' := absurd hs' (List.mem_singleton.mp hs ▸ hk)

theorem other (hcategory : f.problem.category ≠ .unterminated) (hname : f.problem ≠ .expectedGlobalMacroName) :
    Reported text [] [f] where
  given s hs := by cases hs
  told g hg hg' := absurd hg' (List.mem_singleton.mp hg ▸ hcategory)
  nameless g hg hg' := absurd hg' (List.mem_singleton.mp hg ▸ hname)
  comments s hs := by cases hs

theorem tells (h : f.Tells text r) (hk : r.1.kind ≠ .comment) : Reported text [r] [f] where
  given s hs _ := ⟨f, List.mem_singleton_self f, List.mem_singleton.mp hs ▸ h⟩
  told g hg _ := ⟨r, List.mem_singleton_self r, List.mem_singleton.mp hg ▸ h⟩
  nameless g hg hg' := by
    rw [List.mem_singleton.mp hg] at hg'
    have hcategory := h.category
    rw [hg'] at hcategory
    cases hcategory
  comments s hs hs' := absurd hs' (List.mem_singleton.mp hs ▸ hk)

theorem misses (h : f.MissesName r) : Reported text [r] [f] := by
  have hproblem := h.1
  have htree := h.2.1
  refine ⟨fun s hs hopen => ?_, fun g hg hcategory => ?_, fun g hg _ => ?_, fun s hs hkind => ?_⟩
  · rw [List.mem_singleton.mp hs, htree] at hopen
    exact absurd (by decide) hopen.2.2
  · rw [List.mem_singleton.mp hg, hproblem] at hcategory
    cases hcategory
  · exact ⟨r, List.mem_singleton_self r, List.mem_singleton.mp hg ▸ h⟩
  · rw [List.mem_singleton.mp hs, htree] at hkind
    cases hkind

theorem comment {found : List Finding} {s : Span} {t : Tree} (h : Finding.OfComment found (.node .comment [t], s))
    (h' : Reported text rs found) : Reported text ((.node .comment [t], s) :: rs) found where
  given r hr hr' := by
    rcases List.mem_cons.mp hr with rfl | hr
    · exact absurd hr' (Tree.not_open_of_kind rfl)
    · exact h'.given r hr hr'
  told f hf hf' := by
    obtain ⟨r, hr, htells⟩ := h'.told f hf hf'
    exact ⟨r, List.mem_cons_of_mem _ hr, htells⟩
  nameless f hf hf' := by
    obtain ⟨r, hr, hname⟩ := h'.nameless f hf hf'
    exact ⟨r, List.mem_cons_of_mem _ hr, hname⟩
  comments r hr hr' := by
    rcases List.mem_cons.mp hr with rfl | hr
    · exact h
    · exact h'.comments r hr hr'

end Reported

/-! ## Items -/

structure Reporting (text : List Char) (l : Lexer) (items : List Item) (m : Lexer) : Prop where
  account : Account l items m
  reported : Reported text (Item.regions l items) (Item.findingsAll items)

namespace Reporting

variable {text : List Char} {l m m' : Lexer} {is js : List Item} {kind : Kind} {f : Finding}

theorem append (h : Reporting text l is m) (h' : Reporting text m js m') : Reporting text l (is ++ js) m' where
  account := h.account.append h'.account
  reported := by
    rw [Item.regions_append h.account, Item.findingsAll_append]
    exact h.reported.append h'.reported

theorem nil (l : Lexer) : Reporting text l [] l := ⟨.skip l, .nil⟩

theorem relex (h : Reporting text l is m) (mode : Mode) : Reporting text l is (m.relex mode) :=
  ⟨by simpa using h.account.append (.relex m mode), h.reported⟩

theorem token (h : Account l [.token l kind] m) (hk : kind.isNode = false) (hw : kind ≠ .whitespace) :
    Reporting text l [.token l kind] m := by
  have hleaf : kind.isDelimited = false ∧ kind ≠ .comment := by
    cases hd : kind.isDelimited with
    | true => rw [Kind.isNode_of_isDelimited hd] at hk; cases hk
    | false => exact ⟨rfl, fun e => by rw [e] at hk; cases hk⟩
  refine ⟨h, ?_⟩
  rw [Item.regions_token l hw]
  exact .plain (Tree.not_open_of_kind hleaf.1) hleaf.2

theorem item (he : l.kind ≠ .eof) (mode : Mode) : Reporting text l [l.item] (l.next mode) :=
  token (.take he mode) l.isNode_kind l.kind_ne_whitespace

theorem found (hf : f.span.start ≤ f.span.stop) (hcategory : f.problem.category ≠ .unterminated)
    (hname : f.problem ≠ .expectedGlobalMacroName) : Reporting text l [.found f] l :=
  ⟨.found l hf, .other hcategory hname⟩

section
variable (h : Reporting text l is m) (hn : kind.isNode = true)
include h hn

/-- A node whose content has been reported on. -/
theorem node (h' : Reported text
    [(.node kind (Script.waiting (Item.scriptsAll is)), ⟨Item.startOf l is, m.offset⟩)] []) :
    Reporting text l [.node kind is] m := by
  refine ⟨.node hn h.account, ?_⟩
  rw [Item.regions_node h.account (ne_whitespace_of_isNode hn), Item.findingsAll_node]
  exact h'.append h.reported

/-- A node that is given up, with what is found of it. -/
theorem givenUp (hf : f.span.start ≤ f.span.stop) (h' : Reported text
    [(.node kind (Script.waiting (Item.scriptsAll is)), ⟨Item.startOf l is, m.offset⟩)] [f]) :
    Reporting text l [.enclosed kind (is ++ [.found f])] m := by
  refine ⟨.enclosed hn (h.account.append (.found m hf)), ?_⟩
  rw [Item.regions_givenUp h.account (ne_whitespace_of_isNode hn), Item.findingsAll_givenUp]
  have herror : Reported text [(.node .error [.node kind (Script.waiting (Item.scriptsAll is))],
      ⟨Item.startOf l is, m.offset⟩)] [] := .plain (Tree.not_open_of_kind rfl) nofun
  have hperm : ([f] ++ Item.findingsAll is).Perm (Item.findingsAll is ++ [f]) := List.perm_append_comm
  exact (herror.append (h'.append h.reported)).perm (.refl _) hperm

end

end Reporting

theorem Construct.mode_ne_mataBrace (q : Construct) : q.mode ≠ .mataBrace := by
  obtain ⟨s, hs, hmode, -⟩ := q.exists_sort
  rw [← hmode]
  exact (show ∀ s ∈ sorts, s.mode ≠ .mataBrace by decide) s hs

theorem Problem.of_openBlocks {kind : Kind} {problem : Problem} (h : (kind, problem) ∈ openBlocks) :
    kind.isDelimited = false ∧ problem ≠ .expectedGlobalMacroName ∧
      (problem.category = .unterminated → kind = .mataBlock ∧ problem = .missingMataBrace) :=
  (show ∀ b ∈ openBlocks, b.1.isDelimited = false ∧ b.2 ≠ .expectedGlobalMacroName ∧
    (b.2.category = .unterminated → b.1 = .mataBlock ∧ b.2 = .missingMataBrace) by decide) _ h

namespace Derivation

open Reading (bracedName mode_of_braces start_le_of_braces)

variable {outer : Setting} {l l' m : Lexer} {is items : List Item} {text : List Char}

/-- The content of an open construct goes on to the end of its line. -/
theorem lineStop_of_content {q : Construct} (hl : l.Stands text)
    (h : Derivation (.within q) (l.next q.mode) is m) (hm : m.EndsLine) :
    lineStop? text l.ahead.stop = some m.offset := by
  have hline : OneLine (Script.textAll (Item.scriptsAll is)) := by
    rw [← Script.textAll_forest, Script.forest_of_adjacent (h.adjacent rfl)]
    exact Tree.oneLine_of_allOf _ ((Tree.allOf_iff _).mpr fun t ht => (h.nests rfl t ht).all_inner (.inl nofun))
  have hmode : m.mode = q.mode := h.keeps rfl
  have hdone : Lexer.LineDone m.rest :=
    Lexer.lineDone_of_endsLine (hmode ▸ q.mode_ne_mataBrace) (hmode ▸ q.skipsBlanks_mode) hm
  obtain ⟨before, htext, hoffset, -⟩ := hl.next q.mode
  rw [lineStop?, show l.ahead.stop = byteSize before from hoffset, ← htext, cutBytes_byteSize, ← h.account.text,
    Option.map_some, restOfLine_append hline hdone, h.account.starts.2, hoffset]

theorem reporting_bracedName (h : bracedName.leads l is m) (hm : m.kind ≠ .rightBrace) : Reporting text l is m := by
  rcases h with ⟨-, he, rfl, rfl⟩ | ⟨-, ⟨hk, rfl, rfl⟩ | ⟨-, rfl, rfl⟩⟩
  · exact .item he _
  · exact absurd hk hm
  · exact .nil _

section
variable {b : Lexer} (hl : l.kind = .dollar) (hb : b = l.next .globalMacro) (hbrace : b.kind = .leftBrace)
include hl hb hbrace

theorem reporting_brace : Reporting text l [l.item, b.item] (b.next .globalMacro) := by
  subst hb
  exact (Reporting.item (by rw [hl]; decide) _).append (.item (by rw [hbrace]; decide) _)

variable (hm : m = b.next .globalMacro) (hk : m.kind = .rightBrace) (outer)
include hm hk

/-- A macro reference in braces without a name is found where its closing brace is. -/
theorem missesName : Finding.MissesName ⟨.expectedGlobalMacroName, m.ahead.span⟩ (.node .globalMacro
    (Script.waiting (Item.scriptsAll [l.item, b.item, m.item])), ⟨l.ahead.start, (m.next outer.mode).offset⟩) := by
  have hblank : b.mode.skipsBlanks = false := by rw [hb]; rfl
  have hblank' : m.mode.skipsBlanks = false := by rw [hm]; rfl
  have hwaiting : Script.waiting (Item.scriptsAll [l.item, b.item, m.item]) =
      [.leaf l.kind l.ahead.text, .leaf b.kind b.ahead.text, .leaf m.kind m.ahead.text] :=
    Item.waiting_item ((Item.adjacent_item (Lexer.leading_of_skipsBlanks hblank)).append
      (Item.adjacent_item (Lexer.leading_of_skipsBlanks hblank')))
  have hdollar := Lexer.text_of_dollar hl
  have hopen : b.ahead.text = ['{'] := by subst hb; exact Lexeme.text_of_brace.1 hbrace
  have hclose : m.ahead.text = ['}'] := by subst hm; exact Lexeme.text_of_brace.2 hk
  have hstart : b.ahead.start = l.ahead.start + 1 := by
    rw [Lexer.start_eq_offset hblank, hb, Lexer.next_offset, Token.stop, hdollar]
    rfl
  have hstart' : m.ahead.start = l.ahead.start + 2 := by
    rw [Lexer.start_eq_offset hblank', hm, Lexer.next_offset, Token.stop, hopen, hstart]
    rfl
  refine ⟨rfl, ?_, ?_⟩
  · rw [hwaiting, hl, hbrace, hk, hdollar, hopen, hclose]
  · rw [Token.span, Token.stop, hclose, hstart']
    rfl

theorem reporting_nameless : Reporting text l
    [.node .globalMacro [l.item, b.item, .found ⟨.expectedGlobalMacroName, m.ahead.span⟩, m.item]]
    (m.next outer.mode) := by
  have hcloser : m.kind ≠ .eof := by rw [hk]; decide
  have hbraces : Reporting text l [l.item, b.item] m := hm ▸ reporting_brace hl hb hbrace
  have hleaves := (hbraces.append (.item hcloser outer.mode)).reported
  have hfound : Account m [.found ⟨.expectedGlobalMacroName, m.ahead.span⟩] m := .found m (Nat.le_add_right ..)
  have haccount : Account l [l.item, b.item, .found ⟨.expectedGlobalMacroName, m.ahead.span⟩, m.item] _ :=
    hbraces.account.append (hfound.append (.take hcloser outer.mode))
  refine ⟨.node rfl haccount, ?_⟩
  rw [Item.regions_node haccount (by decide), Item.findingsAll_node]
  exact (Reported.misses (missesName outer hl hb hbrace hm hk)).append hleaves

end

theorem tells_openMacro {b : Lexer} (hl : l.kind = .dollar) (hb : b = l.next .globalMacro)
    (hbrace : b.kind = .leftBrace) (hname : bracedName.leads (b.next .globalMacro) is m) :
    Finding.Tells text ⟨.unterminatedGlobalMacro, ⟨l.ahead.start, m.ahead.start⟩⟩
      (.node .globalMacro (Script.waiting (Item.scriptsAll (l.item :: b.item :: is))), ⟨l.ahead.start, m.offset⟩) := by
  have hnests : Tree.Nests false .line _ := nests_openMacro hl hb hbrace hname
  have hopen := hnests.open_of_incomplete
  rw [← Lexer.start_eq_offset (l := m) (by rw [mode_of_braces hname]; rfl)]
  rw [Lexer.item, hl] at hopen ⊢
  exact .reference hopen

theorem tells_unclosed {q : Construct} (hstands : l.Stands text) (hq : outer.Opens q) (hl : l.kind = q.opener)
    (h : Derivation (.within q) (l.next q.mode) is m) (hm : m.EndsLine) :
    Finding.Tells text ⟨q.problem, l.ahead.span⟩
      (.node q.kind (Script.waiting (Item.scriptsAll (l.item :: is))), ⟨l.ahead.start, m.offset⟩) := by
  have hnests : Tree.Nests false outer _ := nests_construct hq hl h Item.adjacent_nil (h.nests rfl) .nil
  have hopen := hnests.open_of_incomplete
  rw [List.append_nil] at hopen
  rw [Lexer.item, hl] at hopen ⊢
  exact .construct hopen rfl (lineStop_of_content hstands h hm)

/-- A comment is one leaf, and without its end it is found where that leaf is. -/
theorem ofComment (h : Account l items m) (hcomment : Item.AreComment l items) :
    ∃ t, Script.waiting (Item.scriptsAll items) = [t] ∧
      Finding.OfComment (Item.findingsAll items) (.node .comment [t], ⟨Item.startOf l items, m.offset⟩) := by
  have hstop := Item.startOf_add_size h
  rcases hcomment with rfl | ⟨hkind, rfl⟩
  · exact ⟨_, rfl, .inl ⟨_, _, rfl⟩⟩
  · refine ⟨_, rfl, .inr ⟨⟨l.ahead.text, by rw [← hkind]; rfl⟩, List.mem_singleton.mpr ?_⟩⟩
    rw [← hstop]
    rfl

theorem reporting_openComment (h : l.kind = .blockComment) : Reporting text l
    [.node .error [.found ⟨.unterminatedBlockComment, l.ahead.span⟩, l.item]] (l.next .statement) := by
  have htells : Finding.Tells text ⟨.unterminatedBlockComment, l.ahead.span⟩
      (.node .error [.leaf l.kind l.ahead.text], l.ahead.span) := by rw [h]; exact .comment
  have hleaf : Reporting text l [l.item] (l.next .statement) := .item (by rw [h]; decide) _
  have hitems : Account l [.found ⟨.unterminatedBlockComment, l.ahead.span⟩, l.item] (l.next .statement) :=
    (Account.found l (Nat.le_add_right ..)).append hleaf.account
  refine ⟨.node Kind.isNode_error hitems, ?_⟩
  rw [Item.regions_node hitems (by decide), Item.findingsAll_node]
  exact (Reported.tells htells nofun).append hleaf.reported

theorem reporting_openBlock {kind : Kind} {problem : Problem} (hk : (kind, problem) ∈ Problem.openBlocks)
    (h : Reporting text l is m) (hstart : Item.StartWith l is) :
    Reporting text l [.enclosed kind (is ++ [.found ⟨problem, l.ahead.span⟩])] m := by
  obtain ⟨hd, hname, hmata⟩ := Problem.of_openBlocks hk
  refine h.givenUp (Kind.isNode_of_mem_openBlocks hk) (Nat.le_add_right ..) ?_
  by_cases hcategory : problem.category = .unterminated
  · obtain ⟨rfl, rfl⟩ := hmata hcategory
    obtain ⟨k, js, rfl⟩ := hstart
    exact .tells .mata nofun
  · have hnode : Reported text
        [(.node kind (Script.waiting (Item.scriptsAll is)), ⟨Item.startOf l is, m.offset⟩)] [] :=
      .plain (Tree.not_open_of_kind hd) (Kind.mem_lineNodes_of_openBlocks hk).2
    exact hnode.append (.other hcategory hname)

/-- What is derived reports on its trees. -/
theorem reporting (h : Derivation outer l items l') (hstands : l.Stands text) (hkeeps : outer.Keeps l.mode) :
    Reporting text l items l' := by
  have hordered : ∀ l : Lexer, l.ahead.span.start ≤ l.ahead.span.stop := fun _ => Nat.le_add_right ..
  have hkind : ∀ {l : Lexer} {kind : Kind} (mode : Mode), l.kind = kind → kind ≠ .eof →
      Reporting text l [l.item] (l.next mode) := fun mode hl he => .item (hl ▸ he) mode
  have hplain : ∀ {kind : Kind} {ts : List Tree} {s : Span}, kind.isDelimited = false → kind ≠ .comment →
      Reported text [(.node kind ts, s)] [] := fun hd hc => .plain (Tree.not_open_of_kind hd) hc
  have hcomplete : ∀ {outer : Setting} {kind : Kind} {ts : List Tree} {s : Span}, kind.isDelimited = true →
      Tree.Nests true outer (.node kind ts) → Reported text [(.node kind ts, s)] [] :=
    fun hd h => .plain (h.not_open_of_complete hd) (Kind.ne_comment_of_isDelimited hd)
  induction h with
  | nil => exact .nil _
  | append h _ ih ih' => exact (ih hstands hkeeps).append (ih' (h.account.stands hstands).1 (h.keeps hkeeps))
  | token h => exact .item h.ne_eof _
  | word h hk mode =>
    exact .token (.word h hk mode) (Kind.isNode_of_mem_wordLabels hk) (Kind.ne_whitespace_of_mem_wordLabels hk)
  | missingName l hp =>
    have hnames := (show ∀ p ∈ Problem.statementNames, p.category ≠ .unterminated ∧ p ≠ .expectedGlobalMacroName
      by decide) _ hp
    exact .found (hordered l) hnames.1 hnames.2
  | @node l l' is kind hk h hmoves hcomment ih =>
    have hd := (show ∀ k ∈ Kind.lineNodes, k.isDelimited = false by decide) kind hk
    by_cases hc : kind = .comment
    · subst hc
      obtain ⟨t, hwaiting, hof⟩ := ofComment h.account (hcomment rfl).2
      refine ⟨.node rfl h.account, ?_⟩
      rw [Item.regions_node h.account (by decide), Item.findingsAll_node, hwaiting]
      exact .comment hof (ih hstands hkeeps).reported
    · exact (ih hstands hkeeps).node (Kind.isNode_of_mem_lineNodes hk) (hplain hd hc)
  | @problem l l' is problem hp h hmoves ih =>
    have hproblem := (show ∀ p ∈ Problem.ofLine, p.category ≠ .unterminated ∧ p ≠ .expectedGlobalMacroName
      by decide) _ hp
    have hfound : Reporting text l [.found ⟨problem, l.ahead.span⟩] l := .found (hordered l) hproblem.1 hproblem.2
    exact (hfound.append (ih hstands hkeeps)).node Kind.isNode_error (hplain rfl nofun)
  | @unknown l h =>
    have hfound : Reporting text l [.found ⟨.unexpectedCharacter, l.ahead.span⟩] l := .found (hordered l) nofun nofun
    exact (hfound.append (hkind _ h (by decide))).node Kind.isNode_error (hplain rfl nofun)
  | openComment h => exact reporting_openComment h.1
  | @openBlock l m l' is kind problem hk h hmoves hl' hstart ih =>
    have hblock := reporting_openBlock hk (ih hstands hkeeps) hstart
    rcases hl' with rfl | rfl
    · exact hblock
    · exact hblock.relex _
  | plainMacro hl hm hname =>
    have hnests := (Derivation.plainMacro hl hm hname).nests hkeeps _ (List.mem_singleton_self _)
    subst hm
    exact ((hkind _ hl (by decide)).append (hkind _ hname (by decide))).node rfl (hcomplete rfl hnests)
  | @bracedMacro outer l b m is hl hb hbrace hname hm =>
    have hnests := (Derivation.bracedMacro hl hb hbrace hname hm).nests hkeeps _ (List.mem_singleton_self _)
    have hcloser : Reporting text m [m.item] (m.next outer.mode) := hkind _ hm (by decide)
    rcases hname with ⟨-, he, rfl, rfl⟩ | ⟨-, ⟨-, rfl, rfl⟩ | ⟨hk, rfl, rfl⟩⟩
    · exact (((reporting_brace hl hb hbrace).append (.item he _)).append hcloser).node rfl (hcomplete rfl hnests)
    · exact reporting_nameless outer hl hb hbrace rfl hm
    · exact absurd hm hk
  | openMacro hl hb hbrace hname hm =>
    exact (((reporting_brace hl hb hbrace).append (reporting_bracedName hname hm)).givenUp rfl
      (start_le_of_braces hb hname) (.tells (tells_openMacro hl hb hbrace hname) nofun)).relex _
  | @closed outer q l m is hq hl h hm ih =>
    have hnests := (Derivation.closed hq hl h hm).nests hkeeps _ (List.mem_singleton_self _)
    have hcontent := (hkind q.mode hl q.opener_ne_eof).append (ih (hstands.next _) rfl)
    exact (hcontent.append (hkind _ hm q.closer_ne_eof)).node q.isNode_kind (hcomplete q.isDelimited_kind hnests)
  | @unclosed outer q l m is hq hl h hm ih =>
    have hcontent := (hkind q.mode hl q.opener_ne_eof).append (ih (hstands.next _) rfl)
    exact (hcontent.givenUp q.isNode_kind (hordered l)
      (.tells (tells_unclosed hstands hq hl h hm) (Kind.ne_comment_of_isDelimited q.isDelimited_kind))).relex _

end Derivation

/-! ## The whole text -/

namespace Place

variable {p q : Place} {kind : Kind} {word : List Char} {ts : List Tree}

/-- The first child of a node, if it is a leaf, is the first leaf of the node. -/
theorem first_of_leaf (h : p.tree.children = .leaf kind word :: ts) : ∃ a, p.children[0]? = some a ∧
    a.tree = .leaf kind word ∧ a.start = p.start ∧ p.firstLeaf? = some a := by
  rw [← map_tree_children_eq] at h
  obtain ⟨a, as, hchildren, htree, -⟩ := List.map_eq_cons_iff.mp h
  have hfirst : p.children[0]? = some a := by rw [hchildren]; rfl
  obtain ⟨_, _, -, -, hstart, -⟩ := child_eq hfirst
  have hleaf : a.isLeaf = true := by rw [isLeaf, htree]; rfl
  refine ⟨a, hfirst, htree, hstart, ?_⟩
  rw [firstLeaf?, leaves_node (isLeaf_of_mem_children (List.mem_of_getElem? hfirst)), hchildren,
    List.flatMap_cons, leaves_leaf hleaf]
  rfl

/-- Two nodes that begin with a leaf of their own at one offset are the same. -/
theorem eq_of_first {root : Place} (horder : InOrder root.leaves) (hp : p ∈ root.elements) (hq : q ∈ root.elements)
    (hfirst : ∃ kind word ts, p.tree.children = .leaf kind word :: ts)
    (hfirst' : ∃ kind word ts, q.tree.children = .leaf kind word :: ts) (hstart : p.start = q.start) : p = q := by
  obtain ⟨_, _, _, hchildren⟩ := hfirst
  obtain ⟨_, _, _, hchildren'⟩ := hfirst'
  obtain ⟨a, hpa, -, ha, hleaf⟩ := first_of_leaf hchildren
  obtain ⟨b, hqb, -, hb, hleaf'⟩ := first_of_leaf hchildren'
  have hmem : ∀ {p a : Place}, p ∈ root.elements → p.firstLeaf? = some a → a ∈ root.leaves :=
    fun hp hleaf => (leaves_isInfix hp).subset (List.mem_of_mem_head? hleaf)
  obtain rfl : a = b := horder.eq_of_start (hmem hp hleaf) (hmem hq hleaf') (by rw [ha, hb, hstart])
  exact Option.some.inj ((parent_of_child hpa).1.symm.trans (parent_of_child hqb).1)

end Place

namespace Parse

theorem exists_finding {text : List Char} {d : Diagnostic} (hd : d ∈ (ofText text).diagnostics) (problem : Problem)
    (hmessage : d.message = problem.message) :
    ∃ f ∈ (ofText text).findings, f.problem = problem ∧ f.span = d.span := by
  obtain ⟨f, hf, rfl⟩ := List.mem_map.mp hd
  exact ⟨f, hf, Problem.message_injective hmessage, rfl⟩

variable {text : List Char} (hsize : byteSize text ≤ maxOffset)
include hsize

theorem reported : Reported text ((ofText text).root.parts.filter (·.1.kind != .whitespace)) (ofText text).findings := by
  obtain ⟨items, l, h⟩ := Reading.exists_lines text
  have hitems := ((Reading.derives_lines _ trivial h).reporting (Lexer.stands_ofText text) trivial).reported
  have hplain : ∀ {r : Tree × Span}, r.1.kind.isDelimited = false → r.1.kind ≠ .comment → Reported text [r] [] :=
    fun hd hc => .plain (Tree.not_open_of_kind hd) hc
  have hroot : (ofText text).root.region.1.kind = .sourceFile := by
    rw [Place.region, root, Place.ofRoot, ofText_eq h hsize]
    rfl
  have hfindings : (ofText text).findings = [] ++ (Item.findingsAll items ++ []) := by
    rw [ofText_eq h hsize, List.append_nil]
    rfl
  rw [regions_root h hsize, hfindings]
  exact (hplain (by rw [hroot]; rfl) (by rw [hroot]; decide)).append (hitems.append (hplain rfl (show Kind.eof ≠ .comment by decide)))

variable {n : Place} (hn : n ∈ (ofText text).root.elements)
include hn

/-- Of a node that is open there is a finding that says so. -/
theorem tells_of_open (hopen : n.tree.IsOpen) : ∃ f ∈ (ofText text).findings, f.Tells text n.region := by
  have hsolid : n.kind ≠ .whitespace := fun hk => Tree.not_open_of_kind (by rw [show n.tree.kind = _ from hk]; rfl) hopen
  exact (reported hsize).given n.region (List.mem_filter.mpr ⟨List.mem_map_of_mem hn, bne_iff_ne.mpr hsolid⟩) hopen

/-- What is found to lack its end where a node begins tells of that node. -/
theorem tells_of_start (hfirst : ∃ kind word ts, n.tree.children = .leaf kind word :: ts) {f : Finding}
    (hf : f ∈ (ofText text).findings) (hcategory : f.problem.category = .unterminated)
    (hstart : f.span.start = n.start) : f.Tells text n.region := by
  obtain ⟨r, hr, htells⟩ := (reported hsize).told f hf hcategory
  obtain ⟨q, hq, rfl⟩ := List.mem_map.mp (List.mem_filter.mp hr).1
  obtain rfl : q = n := Place.eq_of_first (inOrder_leaves text hsize) hq hn htells.first hfirst
    (htells.start.trans hstart)
  exact htells

theorem ofComment_of_node (hk : n.kind = .comment) : Finding.OfComment (ofText text).findings n.region :=
  (reported hsize).comments n.region
    (List.mem_filter.mpr ⟨List.mem_map_of_mem hn, bne_iff_ne.mpr (by rw [show n.region.1.kind = _ from hk]; decide)⟩) hk

omit hn

theorem exists_of_nameless {f : Finding} (hf : f ∈ (ofText text).findings)
    (hproblem : f.problem = .expectedGlobalMacroName) :
    ∃ q ∈ (ofText text).root.elements, f.MissesName q.region := by
  obtain ⟨r, hr, hmisses⟩ := (reported hsize).nameless f hf hproblem
  obtain ⟨q, hq, rfl⟩ := List.mem_map.mp (List.mem_filter.mp hr).1
  exact ⟨q, hq, hmisses⟩

end Parse

end Dofile
