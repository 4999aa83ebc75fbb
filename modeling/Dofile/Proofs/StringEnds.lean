import Dofile.Proofs.Constructs
import Dofile.Proofs.Lookahead
import Dofile.Proofs.Reports

/-!
# Where strings end

A string in double quotes is read in pieces, and macro references in it in a mode of their own, back and
forth. It still ends where it would for a reader who knows nothing of macros: `scanString` is that reader.
-/

namespace Dofile

/-- Scans a text from left to right for the quote that closes a string. A backslash takes the next character of
the line with it, and two quotes stand for one. Returns what is passed, and whether a quote then closes the string
or its line ends first. -/
def scanString : List Char → List Char × Bool
  | [] => ([], false)
  | [c] => if c == '"' then ([], true) else if isLineBreak c then ([], false) else ([c], false)
  | c :: d :: rest =>
    if c == '\\' && !isLineBreak d || c == '"' && d == '"' then
      (c :: d :: (scanString rest).1, (scanString rest).2)
    else if c == '"' then ([], true)
    else if isLineBreak c then ([], false)
    else (c :: (scanString (d :: rest)).1, (scanString (d :: rest)).2)

def Skips (piece rest : List Char) : Prop :=
  scanString (piece ++ rest) = (piece ++ (scanString rest).1, (scanString rest).2)

def IsPlainInString (c : Char) : Prop := c ≠ '"' ∧ c ≠ '\\' ∧ isLineBreak c = false

namespace Skips

variable {a b rest : List Char} {c d : Char}

theorem nil (rest : List Char) : Skips [] rest := rfl

theorem append (h : Skips a (b ++ rest)) (h' : Skips b rest) : Skips (a ++ b) rest := by
  rw [Skips, List.append_assoc, h, h', List.append_assoc]

theorem char (h : IsPlainInString c) (rest : List Char) : Skips [c] rest := by
  obtain ⟨hquote, hescape, hbreak⟩ := h
  cases rest <;> simp [Skips, scanString, hquote, hescape, hbreak]

theorem plain (h : ∀ c ∈ a, IsPlainInString c) (rest : List Char) : Skips a rest := by
  induction a with
  | nil => exact .nil rest
  | cons c a ih =>
    rw [List.forall_mem_cons] at h
    exact (char h.1 (a ++ rest)).append (ih h.2)

theorem pair (h : c = '\\' ∧ isLineBreak d = false ∨ c = '"' ∧ d = '"') (rest : List Char) : Skips [c, d] rest := by
  rcases h with ⟨rfl, hd⟩ | ⟨rfl, rfl⟩
  · simp [Skips, scanString, hd]
  · simp [Skips, scanString]

/-- A backslash at the end of its line stands for itself. -/
theorem backslash (h : ∀ c ∈ rest.head?, isLineBreak c = true) : Skips ['\\'] rest := by
  cases rest with
  | nil => rfl
  | cons c rest =>
    have hc := h c rfl
    have hself : isLineBreak '\\' = false := rfl
    simp [Skips, scanString, hc, hself]

end Skips

namespace Lexeme

theorem textRun_plain (text : List Char) :
    ∀ c ∈ textRun (fun c => c == '"' || c == '\\') text, IsPlainInString c := by
  induction text with
  | nil => exact List.forall_mem_nil _
  | cons c rest ih =>
    rw [textRun]
    split
    · exact List.forall_mem_nil _
    · rename_i hc
      refine List.forall_mem_cons.mpr ⟨?_, ih⟩
      simp only [Bool.or_eq_true, beq_iff_eq, not_or] at hc
      exact ⟨hc.1.2.1, hc.1.2.2, Bool.eq_false_iff.mpr hc.1.1⟩

theorem textRun_of_lineBreak {c : Char} (hc : isLineBreak c = true) (stop : Char → Bool) (rest : List Char) :
    textRun stop (c :: rest) = [] := by
  rw [textRun, hc]
  rfl

/-- Plain text within a string, with the character that it begins with. -/
theorem skips_run {c : Char} {rest after : List Char} (hquote : c ≠ '"') (hbreak : isLineBreak c = false)
    (hescape : c = '\\' → ∀ d ∈ rest.head?, isLineBreak d = true)
    (hafter : textRun (fun c => c == '"' || c == '\\') rest ++ after = rest) :
    Skips (c :: textRun (fun c => c == '"' || c == '\\') rest) after := by
  by_cases hc : c = '\\'
  · subst hc
    have hrun : textRun (fun c => c == '"' || c == '\\') rest = [] := by
      cases rest with
      | nil => rfl
      | cons d rest => exact textRun_of_lineBreak (hescape rfl d rfl) _ _
    rw [hrun] at hafter ⊢
    obtain rfl : after = rest := hafter
    exact .backslash (hescape rfl)
  · exact .plain (List.forall_mem_cons.mpr ⟨⟨hquote, hc, hbreak⟩, textRun_plain rest⟩) after

/-- What the token at the beginning of a string's text is to a scan. Content is passed over. A quote closes the
string, and the end of its line ends it. -/
inductive StringCase (text : List Char) (lexeme : Lexeme) : Prop
  | content (hk : lexeme.kind ∈ Construct.doubleString.tokens)
    (h : ∀ after, lexeme.text ++ after = text → Skips lexeme.text after)
  | dollar (hk : lexeme.kind = .dollar)
  | closed (hk : lexeme.kind = .doubleQuote) (h : scanString text = ([], true))
  | ended (hk : lexeme.kind = .newline ∨ lexeme.kind = .eof) (h : scanString text = ([], false))

theorem scanString_of_lineBreak {c : Char} (hc : isLineBreak c = true) (rest : List Char) :
    scanString (c :: rest) = ([], false) := by
  have hplain : c ≠ '"' ∧ c ≠ '\\' := by
    constructor
    all_goals
      rintro rfl
      cases hc
  cases rest <;> simp [scanString, hplain, hc]

theorem stringCase (text : List Char) : StringCase text (doubleString text) := by
  fun_cases doubleString text with
  | case1 => exact .ended (.inr rfl) rfl
  | case2 => exact .content (by decide) fun after _ => .pair (.inr ⟨rfl, rfl⟩) after
  | case3 c rest _ hc => exact .ended (.inl rfl) (scanString_of_lineBreak hc rest)
  | case4 c rest hnext _ hc =>
    obtain rfl := beq_iff_eq.mp hc
    refine .closed rfl ?_
    cases rest with
    | nil => rfl
    | cons d rest =>
      have hd : d ≠ '"' := fun e => hnext rest rfl (by rw [e])
      simp [scanString, hd]
  | case5 => exact .dollar rfl
  | case6 next tail hnext =>
    refine .content (List.mem_of_elem_eq_true rfl) fun after hafter => skips_run (by decide) rfl (fun _ d hd => ?_) ?_
    · exact Option.some.inj hd ▸ hnext
    · exact (List.cons.inj hafter).2
  | case7 next tail hnext =>
    exact .content (List.mem_of_elem_eq_true rfl) fun after _ => .pair (.inl ⟨rfl, Bool.eq_false_iff.mpr hnext⟩) after
  | case8 c rest _ hbreak hquote _ hescape =>
    have hquote : c ≠ '"' := fun e => hquote (beq_iff_eq.mpr e)
    refine .content (List.mem_of_elem_eq_true rfl) fun after hafter =>
      skips_run hquote (Bool.eq_false_iff.mpr hbreak) (fun hc d hd => ?_) (List.cons.inj hafter).2
    obtain ⟨tail, htail⟩ := List.head?_eq_some_iff.mp hd
    exact (hescape d tail hc htail).elim

/-! ### Macro references -/

theorem plain_of_wordPart {c : Char} (h : isWordPart c = true) : IsPlainInString c := by
  have hne : ∀ d, isWordPart d = false → c ≠ d := by
    rintro d hd rfl
    rw [hd] at h
    cases h
  have hbreak : isLineBreak c = false := by
    simp [isLineBreak, hne '\n' (by decide), hne '\r' (by decide)]
  exact ⟨hne '"' (by decide), hne '\\' (by decide), hbreak⟩

/-- The names and braces of macro references mean nothing to a scan. -/
theorem plain_globalMacro {text : List Char} (h : (globalMacro text).kind ∈ [Kind.ident, .leftBrace, .rightBrace]) :
    ∀ c ∈ (globalMacro text).text, IsPlainInString c := by
  fun_cases globalMacro text with
  | case1 => exact List.forall_mem_nil _
  | case2 c rest hc =>
    rw [globalMacro, if_pos hc] at h
    exact absurd h (by simp [lineBreak])
  | case3 c rest _ hc =>
    rw [beq_iff_eq.mp hc]
    exact List.forall_mem_singleton.mpr ⟨by decide, by decide, rfl⟩
  | case4 c rest _ _ hc =>
    rw [beq_iff_eq.mp hc]
    exact List.forall_mem_singleton.mpr ⟨by decide, by decide, rfl⟩
  | case5 c rest _ _ _ hword =>
    refine List.forall_mem_cons.mpr ⟨plain_of_wordPart (isWordPart_of_isWordStart hword), fun d hd => ?_⟩
    exact plain_of_wordPart (List.all_eq_true.mp List.all_takeWhile d hd)
  | case6 c rest hbreak hopen hclose hword =>
    rw [globalMacro, if_neg hbreak, if_neg hopen, if_neg hclose, if_neg hword] at h
    exact absurd h (by simp)

/-! ### Quotes -/

def IsBareQuote (x : Lexeme) : Prop := x.kind = .doubleQuote → x.text = ['"']

namespace IsBareQuote

theorem other {x : Lexeme} (h : x.kind ≠ .doubleQuote := by nofun) : x.IsBareQuote := fun h' => absurd h' h

theorem char {c : Char} (h : (c == '"') = true) : IsBareQuote ⟨.doubleQuote, [c]⟩ := fun _ => by rw [beq_iff_eq.mp h]

theorem dot (rest : List Char) : (dot rest).IsBareQuote := by
  fun_cases Lexeme.dot rest <;> exact .other

theorem word (word : List Char) : IsBareQuote ⟨Word.classify word, word⟩ := by
  refine .other fun (h : Word.classify word = .doubleQuote) => ?_
  have hword := Word.kind_of_classify word
  rw [h] at hword
  cases hword

theorem punctuation {c : Char} {kind : Kind} (h : punctuation? c = some kind) : IsBareQuote ⟨kind, [c]⟩ := by
  unfold punctuation? at h
  split at h <;> cases h <;> exact .other

theorem statementFrom (fresh : Bool) (c : Char) (rest : List Char) : (statementFrom fresh c rest).IsBareQuote := by
  fun_cases Lexeme.statementFrom fresh c rest with
  | case3 _ _ hc => exact .char hc
  | case7 => exact .dot rest
  | case8 => exact .word _
  | case9 _ _ _ _ _ _ _ _ _ hp => exact .punctuation hp
  | _ => exact .other

theorem statement (fresh : Bool) (text : List Char) : (statement fresh text).IsBareQuote := by
  fun_cases Lexeme.statement fresh text with
  | case2 rest =>
    refine .other ?_
    simp only
    split <;> nofun
  | case5 c rest => exact .statementFrom fresh c rest
  | _ => exact .other

theorem doubleString (text : List Char) : (doubleString text).IsBareQuote := by
  fun_cases Lexeme.doubleString text with
  | case4 _ _ _ _ hc => exact .char hc
  | _ => exact .other

theorem compoundString (text : List Char) : (compoundString text).IsBareQuote := by
  fun_cases Lexeme.compoundString text with
  | case6 _ _ _ _ _ _ hc => exact .char hc
  | _ => exact .other

theorem localMacro (text : List Char) : (localMacro text).IsBareQuote := by
  fun_cases Lexeme.localMacro text with
  | case5 _ _ _ _ _ hc => exact .char hc
  | _ => exact .other

end IsBareQuote

end Lexeme

/-- A quote is a token of its own in the modes in which strings open or close. -/
theorem Mode.bareQuote (mode : Mode) (fresh : Bool) (text : List Char) : (mode.lexeme fresh text).IsBareQuote := by
  cases mode with
  | statement => exact .statement fresh text
  | doubleString => exact .doubleString text
  | compoundString => exact .compoundString text
  | localMacro => exact .localMacro text
  | globalMacro | mataHead | mataLine | mataBrace =>
    refine .other fun h => ?_
    cases text with
    | nil => rw [lexeme_nil] at h; cases h
    | cons c rest =>
      have hmem := lexeme_kind_cases _ fresh c rest |>.resolve_left (by rw [h]; decide)
      rw [h] at hmem
      exact absurd hmem (by decide)

namespace Lexer

variable {l : Lexer}

theorem text_of_doubleQuote (h : l.kind = .doubleQuote) : l.ahead.text = ['"'] := by
  rw [kind_eq] at h
  rw [ahead_eq]
  exact l.mode.bareQuote l.fresh l.body h

section
variable (hm : l.mode = .doubleString)
include hm

theorem stringCase : Lexeme.StringCase l.rest (Lexeme.doubleString l.rest) ∧
    l.kind = (Lexeme.doubleString l.rest).kind ∧ l.ahead.text = (Lexeme.doubleString l.rest).text := by
  have hbody : l.body = l.rest := body_of_skipsBlanks_eq_false (by rw [hm]; rfl)
  rw [kind_eq, ahead_eq, hm, hbody]
  exact ⟨Lexeme.stringCase l.rest, rfl, rfl⟩

theorem skips_token (h : l.kind ∈ Construct.doubleString.tokens) (mode : Mode) :
    Skips l.ahead.fullText (l.next mode).rest := by
  have hlead : l.leading = [] := leading_of_skipsBlanks (by rw [hm]; rfl)
  have hfull : l.ahead.fullText = l.ahead.text := by rw [Token.fullText, show l.ahead.leading = [] from hlead]; rfl
  have hafter : l.ahead.text ++ l.after = l.rest := by rw [← hfull]; exact l.fullText_append_after
  obtain ⟨hcase, hkind, htext⟩ := stringCase hm
  rw [hkind] at h
  rw [hfull, next_rest]
  rw [htext] at hafter ⊢
  cases hcase with
  | content _ hskips => exact hskips _ hafter
  | dollar hk | closed hk => rw [hk] at h; exact absurd h (by decide)
  | ended hk => rcases hk with hk | hk <;> rw [hk] at h <;> exact absurd h (by decide)

theorem scan_of_doubleQuote (h : l.kind = .doubleQuote) : scanString l.rest = ([], true) := by
  obtain ⟨hcase, hkind, -⟩ := stringCase hm
  rw [hkind] at h
  cases hcase with
  | closed _ hscan => exact hscan
  | content hk => rw [h] at hk; exact absurd hk (by decide)
  | dollar hk => cases h.symm.trans hk
  | ended hk => rcases hk with hk | hk <;> cases h.symm.trans hk

theorem scan_of_endsLine (h : l.EndsLine) : scanString l.rest = ([], false) := by
  obtain ⟨hcase, hkind, -⟩ := stringCase hm
  rw [EndsLine, hkind] at h
  cases hcase with
  | ended _ hscan => exact hscan
  | content hk => rcases h with h | h <;> rw [h] at hk <;> exact absurd hk (by decide)
  | dollar hk | closed hk => rcases h with h | h <;> cases h.symm.trans hk

end

end Lexer

/-! ## The content of a string -/

namespace Item

def ArePlainInString (items : List Item) : Prop := ∀ c ∈ Script.textAll (scriptsAll items), IsPlainInString c

theorem textAll_token (l : Lexer) (kind : Kind) : Script.textAll (scriptsAll [.token l kind]) = l.ahead.fullText := by
  simp [scriptsAll, scripts, Script.textAll, Script.text, Token.fullText]

theorem textAll_node (kind : Kind) (is : List Item) :
    Script.textAll (scriptsAll [.node kind is]) = Script.textAll (scriptsAll is) := by
  simp [scriptsAll, scripts, Script.textAll, Script.text]

theorem textAll_enclosed (kind : Kind) (is : List Item) :
    Script.textAll (scriptsAll [.enclosed kind is]) = Script.textAll (scriptsAll is) := by
  simp [scriptsAll, scripts, Script.textAll, Script.text]

theorem textAll_append (is js : List Item) : Script.textAll (scriptsAll (is ++ js)) =
    Script.textAll (scriptsAll is) ++ Script.textAll (scriptsAll js) := by
  rw [scriptsAll_append, Script.textAll_append]

namespace ArePlainInString

variable {l m : Lexer} {is js : List Item}

theorem append (h : ArePlainInString is) (h' : ArePlainInString js) : ArePlainInString (is ++ js) := by
  intro c hc
  rw [textAll_append, List.mem_append] at hc
  exact hc.elim (h c) (h' c)

theorem found (f : Finding) : ArePlainInString [.found f] := nofun

theorem dollar (hm : l.mode = .doubleString) (h : l.kind = .dollar) : ArePlainInString [l.item] := by
  have hlead : l.ahead.leading = [] := Lexer.leading_of_skipsBlanks (by rw [hm]; rfl)
  rw [ArePlainInString, Lexer.item, textAll_token, Token.fullText, hlead, Lexer.text_of_dollar h]
  exact List.forall_mem_singleton.mpr ⟨by decide, by decide, rfl⟩

theorem globalMacro (hm : l.mode = .globalMacro) (h : l.kind ∈ [Kind.ident, .leftBrace, .rightBrace]) :
    ArePlainInString [l.item] := by
  have hlead : l.ahead.leading = [] := Lexer.leading_of_skipsBlanks (by rw [hm]; rfl)
  rw [ArePlainInString, Lexer.item, textAll_token, Token.fullText, hlead, Lexer.ahead_eq, hm]
  rw [Lexer.kind_eq, hm] at h
  exact Lexeme.plain_globalMacro h

theorem bracedName (hm : l.mode = .globalMacro) (h : Reading.bracedName.leads l is m) : ArePlainInString is := by
  rcases h with ⟨hk, -, rfl, -⟩ | ⟨-, ⟨-, rfl, -⟩ | ⟨-, rfl, -⟩⟩
  · exact .globalMacro hm (by rw [hk]; decide)
  · exact .found _
  · exact nofun

/-- The dollar sign and the brace of a macro reference, with the name behind them. -/
theorem braces {b : Lexer} (hmode : l.mode = .doubleString) (hl : l.kind = .dollar) (hb : b = l.next .globalMacro)
    (hbrace : b.kind = .leftBrace) (hname : Reading.bracedName.leads (b.next .globalMacro) is m) :
    ArePlainInString (l.item :: b.item :: is) := by
  subst hb
  exact (dollar hmode hl).append ((globalMacro rfl (by rw [hbrace]; decide)).append (.bracedName rfl hname))

end ArePlainInString

end Item

/-- What is derived within a string is passed over by a scan. Macro references are plain text to it. -/
theorem Derivation.skips {l m : Lexer} {items : List Item} (h : Derivation (.within .doubleString) l items m)
    (hmode : l.mode = .doubleString) : Skips (Script.textAll (Item.scriptsAll items)) m.rest := by
  generalize hs : Setting.within .doubleString = outer at h
  induction h with
  | nil => exact .nil _
  | append h h' ih ih' =>
    subst hs
    rw [Item.textAll_append]
    refine .append ?_ (ih' (h.keeps hmode) rfl)
    rw [h'.account.text]
    exact ih hmode rfl
  | token h =>
    subst hs
    rw [Lexer.item, Item.textAll_token]
    exact Lexer.skips_token hmode h _
  | plainMacro hl hm hname =>
    subst hm
    rw [Item.textAll_node]
    exact .plain ((Item.ArePlainInString.dollar hmode hl).append (.globalMacro rfl (by rw [hname]; decide))) _
  | bracedMacro hl hb hbrace hname hm =>
    rw [Item.textAll_node]
    have hcloser := Item.ArePlainInString.globalMacro (Reading.mode_of_braces hname) (by rw [hm]; decide)
    exact .plain ((Item.ArePlainInString.braces hmode hl hb hbrace hname).append hcloser) _
  | openMacro hl hb hbrace hname =>
    rw [Item.textAll_enclosed]
    exact .plain ((Item.ArePlainInString.braces hmode hl hb hbrace hname).append (.found _)) _
  | closed hq | unclosed hq => subst hs; cases hq
  | word | missingName | node | problem | unknown | openComment | openBlock => cases hs

/-! ## Strings in a tree -/

def EndsAsScanned (text : List Char) (r : Tree × Span) : Prop :=
  ∃ before after ts, cutBytes (r.2.start + 1) text = some (before, after) ∧
    r.1.children = .leaf .doubleQuote ['"'] :: ts ∧
    (∀ content, scanString after = (content, true) →
      ts.getLast? = some (.leaf .doubleQuote ['"']) ∧ r.2.stop = r.2.start + 1 + byteSize content + 1) ∧
    (∀ content, scanString after = (content, false) → r.1.IsOpen ∧ r.2.stop = r.2.start + 1 + byteSize content)

namespace Construct.Derived

variable {text : List Char} {found : List Finding} {l m : Lexer} {is : List Item}
  (h : Derived text found .doubleString l m is)
include h

theorem mode_eq : m.mode = .doubleString := h.content.keeps rfl

/-- The text behind the opening quote of a string, and the place behind the content. -/
theorem scan_content : (∃ before, cutBytes (l.ahead.start + 1) text = some (before, l.after)) ∧
    scanString l.after =
      (Script.textAll (Item.scriptsAll is) ++ (scanString m.rest).1, (scanString m.rest).2) ∧
    m.offset = l.ahead.start + 1 + byteSize (Script.textAll (Item.scriptsAll is)) := by
  obtain ⟨before, htext, hoffset, -⟩ := h.stands.next .doubleString
  have hquote : l.ahead.stop = l.ahead.start + 1 := by
    rw [Token.stop, Lexer.text_of_doubleQuote h.opens]
    rfl
  have hstop : byteSize before = l.ahead.start + 1 := hoffset.symm.trans hquote
  have hscan := h.content.skips rfl
  rw [Skips, h.content.account.text] at hscan
  refine ⟨⟨before, by rw [← hstop, ← htext]; exact cutBytes_byteSize ..⟩, hscan, ?_⟩
  rw [h.content.account.starts.2, ← hquote]
  rfl

theorem endsAsScanned_closed (hm : m.kind = .doubleQuote) : EndsAsScanned text
    (.node .doubleString (Script.waiting (Item.scriptsAll (l.item :: is ++ [m.item]))),
      ⟨l.ahead.start, m.ahead.stop⟩) := by
  obtain ⟨⟨before, hcut⟩, hscan, hoffset⟩ := h.scan_content
  rw [Lexer.scan_of_doubleQuote h.mode_eq hm, List.append_nil] at hscan
  have hquote := Lexer.text_of_doubleQuote hm
  have hblank : m.mode.skipsBlanks = false := by rw [h.mode_eq]; rfl
  have hadjacent : Item.Adjacent (is ++ [m.item]) :=
    (h.content.adjacent rfl).append (Item.adjacent_item (Lexer.leading_of_skipsBlanks hblank))
  refine ⟨before, l.after, Item.trees (is ++ [m.item]), hcut, ?_, fun content hcontent => ?_,
    fun content hcontent => ?_⟩
  · rw [Tree.children, List.cons_append, Item.waiting_item hadjacent, h.opens, Lexer.text_of_doubleQuote h.opens]
    rfl
  · obtain ⟨rfl, -⟩ := Prod.mk.inj (hscan.symm.trans hcontent)
    refine ⟨?_, ?_⟩
    · rw [Item.trees_append, ← hquote, ← hm]
      exact List.getLast?_concat
    · show m.ahead.stop = _
      rw [Token.stop, hquote, Lexer.start_eq_offset hblank, hoffset]
      rfl
  · cases hscan.symm.trans hcontent

theorem endsAsScanned_givenUp (hm : m.EndsLine) : EndsAsScanned text
    (.node .doubleString (Script.waiting (Item.scriptsAll (l.item :: is))), ⟨l.ahead.start, m.offset⟩) := by
  obtain ⟨⟨before, hcut⟩, hscan, hoffset⟩ := h.scan_content
  rw [Lexer.scan_of_endsLine h.mode_eq hm, List.append_nil] at hscan
  obtain ⟨outer, hq⟩ := h.allowed
  have hnests : Tree.Nests false outer _ := Derivation.nests_construct hq h.opens h.content Item.adjacent_nil
    (h.content.nests rfl) .nil
  rw [List.append_nil] at hnests
  refine ⟨before, l.after, Item.trees is, hcut, ?_, fun content hcontent => ?_, fun content hcontent => ?_⟩
  · rw [Tree.children, Item.waiting_item (h.content.adjacent rfl), h.opens, Lexer.text_of_doubleQuote h.opens]
    rfl
  · cases hscan.symm.trans hcontent
  · obtain ⟨rfl, -⟩ := Prod.mk.inj (hscan.symm.trans hcontent)
    exact ⟨hnests.open_of_incomplete, hoffset⟩

end Construct.Derived

/-- Where a scan ends: at a quote that closes, or with its line. -/
theorem scanString_rest (text : List Char) : ∃ rest, (scanString text).1 ++ rest = text ∧
    if (scanString text).2 then rest.head? = some '"' else Lexer.LineDone rest := by
  fun_induction scanString text with
  | case1 => exact ⟨[], rfl, trivial⟩
  | case2 c hc => exact ⟨[c], rfl, congrArg some (beq_iff_eq.mp hc)⟩
  | case3 c _ hc => exact ⟨[c], rfl, hc⟩
  | case4 c => exact ⟨[], rfl, trivial⟩
  | case5 c d rest _ ih =>
    obtain ⟨after, hafter, hends⟩ := ih
    exact ⟨after, congrArg (c :: d :: ·) hafter, hends⟩
  | case6 c d rest _ hc => exact ⟨c :: d :: rest, rfl, congrArg some (beq_iff_eq.mp hc)⟩
  | case7 c d rest _ _ hc => exact ⟨c :: d :: rest, rfl, hc⟩
  | case8 c d rest _ _ _ ih =>
    obtain ⟨after, hafter, hends⟩ := ih
    exact ⟨after, congrArg (c :: ·) hafter, hends⟩

namespace Parse

theorem endsAsScanned_of_node {text : List Char} (hsize : byteSize text ≤ maxOffset) {n : Place}
    (hn : n ∈ (ofText text).root.nodes) (hk : n.kind = .doubleString) : EndsAsScanned text n.region := by
  have hP : HoldsWhereDerived text (ofText text).findings
      fun r => r.1.kind = .doubleString → EndsAsScanned text r := by
    refine ⟨fun r hnone hr => ?_, fun h hm hr => ?_, fun h hm _ hr => ?_⟩
    · rw [hr] at hnone
      cases hnone
    · obtain rfl := Construct.eq_doubleString_of_kind hr
      exact h.endsAsScanned_closed hm
    · obtain rfl := Construct.eq_doubleString_of_kind hr
      exact h.endsAsScanned_givenUp hm
  exact holds_of_node hsize hn hP (by rw [hk]; decide) hk

/-- Every string in double quotes ends where a scan that knows nothing of macros ends, be it with the quote that
closes it or, in a problem node, with its line. -/
theorem string_ends {text : List Char} (hsize : byteSize text ≤ maxOffset) :
    ∀ n ∈ (ofText text).root.nodes, n.kind = .doubleString → ∃ o before after,
      n.children[0]? = some o ∧ o.tree = .leaf .doubleQuote ['"'] ∧ cutBytes o.stop text = some (before, after) ∧
      (∀ content, scanString after = (content, true) → ∃ c, n.children.getLast? = some c ∧
        c.tree = .leaf .doubleQuote ['"'] ∧ c.start = o.stop + byteSize content ∧ c.stop = n.stop) ∧
      (∀ content, scanString after = (content, false) → n.stop = o.stop + byteSize content ∧
        (∃ rest, content ++ rest = after ∧ Lexer.LineDone rest) ∧
        ∃ e, n.parent? = some e ∧ e.kind = .error ∧ e.children = [n]) := by
  intro n hn hk
  obtain ⟨before, after, ts, hcut, hchildren, hclosed, hopen⟩ := endsAsScanned_of_node hsize hn hk
  obtain ⟨o, ho, htree, hstart, -⟩ := Place.first_of_leaf hchildren
  have hstop : o.stop = n.start + 1 := by
    rw [Place.stop, hstart, htree]
    rfl
  refine ⟨o, before, after, ho, htree, by rw [hstop]; exact hcut, fun content hscan => ?_, fun content hscan => ?_⟩
  · obtain ⟨hlast, hend⟩ := hclosed content hscan
    obtain ⟨c, hc, hctree, hcstop⟩ := Place.last_of_tree (p := n) (t := .leaf .doubleQuote ['"']) (by
      rw [show n.tree.children = _ from hchildren, List.getLast?_cons, hlast]
      rfl)
    refine ⟨c, hc, hctree, ?_, hcstop⟩
    have hsize : c.stop = c.start + 1 := by
      rw [Place.stop, hctree]
      rfl
    have hend : n.stop = n.start + 1 + byteSize content + 1 := hend
    omega
  · obtain ⟨htreeOpen, hend⟩ := hopen content hscan
    obtain ⟨rest, hrest⟩ := scanString_rest after
    rw [hscan] at hrest
    obtain ⟨complete, outer, hsits⟩ := sits_of_node hsize hn
    have hincomplete := (hsits.nests.open_iff (by rw [show n.tree.kind = _ from hk]; rfl)).mp htreeOpen
    exact ⟨by rw [hstop]; exact hend, ⟨rest, hrest⟩, hsits.alone hincomplete⟩

theorem string_ends_mixed :
    let text := "di \"a\\\"$b\"\"ü $\x7bd\" `\"e \"\\\\\" `f \"g\n".toList
    (byteSize text ≤ maxOffset ∧ ((ofText text).root.nodes.filter (·.kind == .doubleString)).map Place.text =
      ["\"a\\\"$b\"\"ü $\x7bd\"".toList, "\"\\\\\"".toList, "\"g".toList]) ∧
    ∀ n ∈ (ofText text).root.nodes, n.kind = .doubleString → ∃ o before after,
      n.children[0]? = some o ∧ o.tree = .leaf .doubleQuote ['"'] ∧ cutBytes o.stop text = some (before, after) ∧
      (∀ content, scanString after = (content, true) → ∃ c, n.children.getLast? = some c ∧
        c.tree = .leaf .doubleQuote ['"'] ∧ c.start = o.stop + byteSize content ∧ c.stop = n.stop) ∧
      (∀ content, scanString after = (content, false) → n.stop = o.stop + byteSize content ∧
        (∃ rest, content ++ rest = after ∧ Lexer.LineDone rest) ∧
        ∃ e, n.parent? = some e ∧ e.kind = .error ∧ e.children = [n]) := by
  intro text
  have hsize : byteSize text ≤ maxOffset := by decide
  have hstrings : ((ofText text).root.nodes.filter (·.kind == .doubleString)).map Place.text =
      ["\"a\\\"$b\"\"ü $\x7bd\"".toList, "\"\\\\\"".toList, "\"g".toList] := by decide +kernel
  exact ⟨⟨hsize, hstrings⟩, string_ends hsize⟩

end Parse

end Dofile
