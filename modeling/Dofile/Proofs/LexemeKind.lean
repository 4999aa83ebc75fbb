import Dofile.Proofs.Lexeme
import Mathlib.Logic.Basic

/-!
# The kinds that a mode knows

A line break is read alike in all modes but the one inside the braces of a mata
block. Any other character begins a lexeme of a kind that its mode knows, and no
mode knows line breaks, blanks, nodes or the end of the text.
-/

namespace Dofile

namespace Mode

def kinds : Mode → List Kind
  | statement =>
    [.lineComment, .continuationComment, .starComment, .blockComment, .doubleQuote, .compoundOpen,
      .backtick, .dollar, .number, .missingValue, .builtinVariable, .controlKeyword, .typeKeyword,
      .ident, .operator, .hash, .leftParen, .rightParen, .leftBracket, .rightBracket, .leftBrace,
      .rightBrace, .colon, .comma, .other, .unknown]
  | doubleString => [.doubleQuote, .escapedQuote, .stringEscape, .stringText, .dollar]
  | compoundString =>
    [.compoundOpen, .compoundClose, .backtick, .doubleQuote, .dollar, .compoundText]
  | localMacro => [.backtick, .quote, .doubleQuote, .dollar, .ident, .number, .macroText]
  | globalMacro => [.leftBrace, .rightBrace, .ident, .other]
  | mataHead => [.colon, .leftBrace, .mataContent]
  | mataLine => [.controlKeyword, .mataContent]
  | mataBrace => [.rightBrace, .mataContent]

theorem isNode_of_mem_kinds {mode : Mode} {k : Kind} (h : k ∈ mode.kinds) : k.isNode = false := by
  revert k
  cases mode <;> decide

theorem ne_whitespace_of_mem_kinds {mode : Mode} {k : Kind} (h : k ∈ mode.kinds) : k ≠ .whitespace := by
  revert k
  cases mode <;> decide

theorem ne_newline_of_mem_kinds {mode : Mode} {k : Kind} (h : k ∈ mode.kinds) : k ≠ .newline := by
  revert k
  cases mode <;> decide

theorem ne_eof_of_mem_kinds {mode : Mode} {k : Kind} (h : k ∈ mode.kinds) : k ≠ .eof := by
  revert k
  cases mode <;> decide

end Mode

namespace Lexeme

theorem kind_ite_mem {p : Prop} [Decidable p] {a b : Lexeme} {kinds : List Kind}
    (ha : a.kind ∈ kinds) (hb : b.kind ∈ kinds) : (if p then a else b).kind ∈ kinds := by
  by_cases h : p
  · rw [if_pos h]; exact ha
  · rw [if_neg h]; exact hb

def lineKinds : List Kind := Mode.statement.kinds.filter (· ≠ .blockComment)

theorem mem_lineKinds {k : Kind} : k ∈ lineKinds ↔ k ∈ Mode.statement.kinds ∧ k ≠ .blockComment := by
  simp [lineKinds]

theorem classify_mem_kinds (word : List Char) : Word.classify word ∈ lineKinds := by
  unfold Word.classify
  split; · decide
  split; · decide
  split <;> decide

theorem punctuation_mem_kinds {c : Char} {kind : Kind} (h : punctuation? c = some kind) : kind ∈ lineKinds := by
  unfold punctuation? at h
  split at h <;> cases h <;> decide

theorem dot_kind_mem (rest : List Char) : (dot rest).kind ∈ lineKinds := by
  unfold dot
  split
  · simp [lineKinds, Mode.kinds]
  · split
    · simp [lineKinds, Mode.kinds]
    · split <;> simp [lineKinds, Mode.kinds]

theorem not_lineBreak_of_wordStart {c : Char} (h : isWordStart c = true) : isLineBreak c = false := by
  cases hb : isLineBreak c with
  | false => rfl
  | true =>
    simp only [isLineBreak, Bool.or_eq_true, beq_iff_eq] at hb
    rcases hb with rfl | rfl <;> exact absurd h (by decide)

theorem isDigit_of_wordStart {c : Char} (h : isWordStart c = true) : c.isDigit = false := by
  simp only [isWordStart, Bool.or_eq_true, beq_iff_eq] at h
  rcases h with h | rfl
  · have h : (decide (c.val ≥ 65 ∧ c.val ≤ 90) || (c.val ≥ 97 && c.val ≤ 122)) = true := h
    simp only [Bool.or_eq_true, Bool.and_eq_true, decide_eq_true_eq, ge_iff_le,
      UInt32.le_iff_toNat_le] at h
    simp only [Char.isDigit, Bool.and_eq_false_iff, decide_eq_false_iff_not, ge_iff_le,
      UInt32.le_iff_toNat_le]
    simp at h ⊢
    omega
  · decide

theorem statementFrom_of_wordStart {c : Char} (h : isWordStart c = true) (fresh : Bool) (rest : List Char) :
    statementFrom fresh c rest = ⟨Word.classify (c :: restOfWord rest), c :: restOfWord rest⟩ := by
  have hne : ∀ d, isWordStart d = false → c ≠ d := by
    intro d hd e
    subst e
    rw [hd] at h
    cases h
  simp [statementFrom, not_lineBreak_of_wordStart h, isDigit_of_wordStart h, h, hne '*' (by decide),
    hne '"' (by decide), hne '`' (by decide), hne '$' (by decide), hne '.' (by decide)]

/-- Only comments and compound strings are told by more than their first character. -/
theorem statement_cons {c : Char} (hslash : c ≠ '/') (hbacktick : c ≠ '`') (fresh : Bool) (rest : List Char) :
    statement fresh (c :: rest) = statementFrom fresh c rest := by
  simp [statement, hslash, hbacktick]

theorem statement_of_wordStart {c : Char} (h : isWordStart c = true) (fresh : Bool) (rest : List Char) :
    statement fresh (c :: rest) = ⟨Word.classify (c :: restOfWord rest), c :: restOfWord rest⟩ := by
  rw [statement_cons, statementFrom_of_wordStart h]
  all_goals
    rintro rfl
    exact absurd h (by decide)

theorem statement_colon (fresh : Bool) (rest : List Char) :
    statement fresh (':' :: rest) = ⟨.colon, [':']⟩ := by
  simp [statement, statementFrom, punctuation?, isLineBreak, isWordStart, Char.isDigit]

theorem statementFrom_kind_mem (fresh : Bool) {c : Char} (hc : isLineBreak c = false) (rest : List Char) :
    (statementFrom fresh c rest).kind ∈ lineKinds := by
  rw [statementFrom, if_neg (Bool.eq_false_iff.mp hc)]
  apply kind_ite_mem (by simp [lineKinds, Mode.kinds])
  apply kind_ite_mem (by simp [lineKinds, Mode.kinds])
  apply kind_ite_mem (by simp [lineKinds, Mode.kinds])
  apply kind_ite_mem (by simp [lineKinds, Mode.kinds])
  apply kind_ite_mem (by simp [lineKinds, Mode.kinds])
  apply kind_ite_mem (dot_kind_mem rest)
  apply kind_ite_mem (classify_mem_kinds _)
  cases hp : punctuation? c with
  | some kind => exact punctuation_mem_kinds hp
  | none =>
    apply kind_ite_mem (by simp [lineKinds, Mode.kinds])
    apply kind_ite_mem (by simp [lineKinds, Mode.kinds])
    apply kind_ite_mem (by simp [lineKinds, Mode.kinds])
    simp [lineKinds, Mode.kinds]

theorem statement_kind_mem (fresh : Bool) {c : Char} (hc : isLineBreak c = false) (rest : List Char) :
    (statement fresh (c :: rest)).kind ∈ Mode.statement.kinds := by
  unfold statement
  split
  · rename_i heq; cases heq
  · simp only
    split <;> simp [Mode.kinds]
  · simp [Mode.kinds]
  · simp [Mode.kinds]
  · rename_i heq
    cases heq
    exact (mem_lineKinds.mp (statementFrom_kind_mem fresh hc rest)).1

/-- A block comment begins with its opening. -/
theorem blockComment_cases {fresh : Bool} {text : List Char} (hk : (statement fresh text).kind = .blockComment) :
    ∃ tail, text = '/' :: '*' :: tail := by
  unfold statement at hk
  split at hk
  · cases hk
  · simp only at hk
    split at hk <;> cases hk
  · exact ⟨_, rfl⟩
  · cases hk
  · rename_i c rest _ _ _
    cases hc : isLineBreak c with
    | false => exact absurd hk (mem_lineKinds.mp (statementFrom_kind_mem fresh hc rest)).2
    | true => simp [statementFrom, hc, lineBreak] at hk

theorem doubleString_kind_mem {c : Char} (hc : isLineBreak c = false) (rest : List Char) :
    (doubleString (c :: rest)).kind ∈ Mode.doubleString.kinds := by
  unfold doubleString
  split
  · rename_i heq; cases heq
  · simp [Mode.kinds]
  · rename_i heq
    cases heq
    simp only [hc, Bool.false_eq_true, if_false]
    split; · simp [Mode.kinds]
    split; · simp [Mode.kinds]
    split
    · split <;> simp [Mode.kinds]
    · simp [Mode.kinds]

theorem compoundString_kind_mem {c : Char} (hc : isLineBreak c = false) (rest : List Char) :
    (compoundString (c :: rest)).kind ∈ Mode.compoundString.kinds := by
  unfold compoundString
  split
  · rename_i heq; cases heq
  · simp [Mode.kinds]
  · simp [Mode.kinds]
  · rename_i heq
    cases heq
    simp only [hc, Bool.false_eq_true, if_false]
    split; · simp [Mode.kinds]
    split; · simp [Mode.kinds]
    split <;> simp [Mode.kinds]

theorem localMacro_kind_mem {c : Char} (hc : isLineBreak c = false) (rest : List Char) :
    (localMacro (c :: rest)).kind ∈ Mode.localMacro.kinds := by
  rw [localMacro, if_neg (Bool.eq_false_iff.mp hc)]
  apply kind_ite_mem (by simp [Mode.kinds])
  apply kind_ite_mem (by simp [Mode.kinds])
  apply kind_ite_mem (by simp [Mode.kinds])
  apply kind_ite_mem (by simp [Mode.kinds])
  apply kind_ite_mem (by simp [Mode.kinds])
  apply kind_ite_mem (by simp [Mode.kinds])
  simp [Mode.kinds]

theorem globalMacro_kind_mem {c : Char} (hc : isLineBreak c = false) (rest : List Char) :
    (globalMacro (c :: rest)).kind ∈ Mode.globalMacro.kinds := by
  rw [globalMacro, if_neg (Bool.eq_false_iff.mp hc)]
  apply kind_ite_mem (by simp [Mode.kinds])
  apply kind_ite_mem (by simp [Mode.kinds])
  apply kind_ite_mem (by simp [Mode.kinds])
  simp [Mode.kinds]

/-- The braces of a macro reference. -/
theorem text_of_brace {text : List Char} :
    ((globalMacro text).kind = .leftBrace → (globalMacro text).text = ['{']) ∧
      ((globalMacro text).kind = .rightBrace → (globalMacro text).text = ['}']) := by
  cases text with
  | nil => exact ⟨nofun, nofun⟩
  | cons c rest =>
    rw [globalMacro]
    split
    · exact ⟨nofun, nofun⟩
    · split
      next h => exact ⟨fun _ => by rw [beq_iff_eq.mp h], nofun⟩
      split
      next h => exact ⟨nofun, fun _ => by rw [beq_iff_eq.mp h]⟩
      split <;> exact ⟨nofun, nofun⟩

theorem mataHead_kind_mem {c : Char} (hc : isLineBreak c = false) (rest : List Char) :
    (mataHead (c :: rest)).kind ∈ Mode.mataHead.kinds := by
  rw [mataHead, if_neg (Bool.eq_false_iff.mp hc)]
  apply kind_ite_mem (by simp [Mode.kinds])
  apply kind_ite_mem (by simp [Mode.kinds])
  simp [Mode.kinds]

theorem mataLine_kind_mem {c : Char} (hc : isLineBreak c = false) (rest : List Char) :
    (mataLine (c :: rest)).kind ∈ Mode.mataLine.kinds := by
  simp only [mataLine, hc, Bool.false_eq_true, if_false]
  exact kind_ite_mem (by simp [Mode.kinds]) (by simp [Mode.kinds])

theorem mataBrace_kind_mem (c : Char) (rest : List Char) :
    (mataBrace (c :: rest)).kind ∈ Mode.mataBrace.kinds := by
  unfold mataBrace
  split
  · rename_i heq; cases heq
  · simp [Mode.kinds]
  · simp [Mode.kinds]

section
variable {c : Char} {rest : List Char} {x : Lexeme}

theorem dollar_of_opens (h : (c == '$' && opensMacro rest) = true) : c = '$' ∧ opensMacro rest = true ∧ [c] = ['$'] := by
  simp only [Bool.and_eq_true, beq_iff_eq] at h
  exact ⟨h.1, h.2, by rw [h.1]⟩

theorem statementFrom_dollar_cases {fresh : Bool} (hx : statementFrom fresh c rest = x) (hk : x.kind = .dollar) :
    c = '$' ∧ opensMacro rest = true ∧ x.text = ['$'] := by
  rw [statementFrom] at hx
  rcases ite_eq_iff.mp hx with ⟨-, rfl⟩ | ⟨-, hx⟩; · cases hk
  rcases ite_eq_iff.mp hx with ⟨-, rfl⟩ | ⟨-, hx⟩; · cases hk
  rcases ite_eq_iff.mp hx with ⟨-, rfl⟩ | ⟨-, hx⟩; · cases hk
  rcases ite_eq_iff.mp hx with ⟨-, rfl⟩ | ⟨-, hx⟩; · cases hk
  rcases ite_eq_iff.mp hx with ⟨hdollar, rfl⟩ | ⟨-, hx⟩; · exact dollar_of_opens hdollar
  rcases ite_eq_iff.mp hx with ⟨-, rfl⟩ | ⟨-, hx⟩; · cases hk
  rcases ite_eq_iff.mp hx with ⟨-, rfl⟩ | ⟨-, hx⟩
  · unfold dot at hk
    split at hk; · cases hk
    split at hk; · cases hk
    split at hk <;> cases hk
  rcases ite_eq_iff.mp hx with ⟨-, rfl⟩ | ⟨-, hx⟩
  · simp only [Word.classify] at hk
    split at hk; · cases hk
    split at hk; · cases hk
    split at hk <;> cases hk
  split at hx
  · rename_i hp
    subst hx hk
    unfold punctuation? at hp
    split at hp <;> cases hp
  rcases ite_eq_iff.mp hx with ⟨-, rfl⟩ | ⟨-, hx⟩; · cases hk
  rcases ite_eq_iff.mp hx with ⟨-, rfl⟩ | ⟨-, hx⟩; · cases hk
  rcases ite_eq_iff.mp hx with ⟨-, rfl⟩ | ⟨-, rfl⟩ <;> cases hk

theorem doubleString_dollar_cases (hx : doubleString (c :: rest) = x) (hk : x.kind = .dollar) :
    c = '$' ∧ opensMacro rest = true ∧ x.text = ['$'] := by
  unfold doubleString at hx
  split at hx
  · subst hx; cases hk
  · subst hx; cases hk
  · rename_i heq
    cases heq
    split at hx; · subst hx; cases hk
    split at hx; · subst hx; cases hk
    split at hx; · subst hx; exact dollar_of_opens ‹_›
    split at hx
    · split at hx <;> subst hx <;> cases hk
    · subst hx; cases hk

theorem compoundString_dollar_cases (hx : compoundString (c :: rest) = x) (hk : x.kind = .dollar) :
    c = '$' ∧ opensMacro rest = true ∧ x.text = ['$'] := by
  unfold compoundString at hx
  split at hx
  · subst hx; cases hk
  · subst hx; cases hk
  · subst hx; cases hk
  · rename_i heq
    cases heq
    split at hx; · subst hx; cases hk
    split at hx; · subst hx; cases hk
    split at hx; · subst hx; cases hk
    split at hx; · subst hx; exact dollar_of_opens ‹_›
    subst hx; cases hk

theorem localMacro_dollar_cases (hx : localMacro (c :: rest) = x) (hk : x.kind = .dollar) :
    c = '$' ∧ opensMacro rest = true ∧ x.text = ['$'] := by
  rw [localMacro] at hx
  split at hx; · subst hx; cases hk
  split at hx; · subst hx; cases hk
  split at hx; · subst hx; cases hk
  split at hx; · subst hx; cases hk
  split at hx; · subst hx; exact dollar_of_opens ‹_›
  split at hx; · subst hx; cases hk
  split at hx <;> subst hx <;> cases hk

end

end Lexeme

namespace Mode

theorem lexeme_kind_mem (mode : Mode) (fresh : Bool) {c : Char} (hc : isLineBreak c = false)
    (rest : List Char) : (mode.lexeme fresh (c :: rest)).kind ∈ mode.kinds := by
  cases mode with
  | statement => exact Lexeme.statement_kind_mem fresh hc rest
  | doubleString => exact Lexeme.doubleString_kind_mem hc rest
  | compoundString => exact Lexeme.compoundString_kind_mem hc rest
  | localMacro => exact Lexeme.localMacro_kind_mem hc rest
  | globalMacro => exact Lexeme.globalMacro_kind_mem hc rest
  | mataHead => exact Lexeme.mataHead_kind_mem hc rest
  | mataLine => exact Lexeme.mataLine_kind_mem hc rest
  | mataBrace => exact Lexeme.mataBrace_kind_mem c rest

/-- Line breaks are content inside the braces of a mata block and nowhere else. -/
theorem lexeme_of_lineBreak {mode : Mode} (hm : mode ≠ .mataBrace) (fresh : Bool) {c : Char}
    (hc : isLineBreak c = true) (rest : List Char) :
    mode.lexeme fresh (c :: rest) = Lexeme.lineBreak c rest := by
  have hchar : c = '\n' ∨ c = '\r' := by simpa [isLineBreak] using hc
  cases mode with
  | mataBrace => exact absurd rfl hm
  | statement =>
    rcases hchar with rfl | rfl <;> simp [lexeme, Lexeme.statement, Lexeme.statementFrom, hc]
  | doubleString => rcases hchar with rfl | rfl <;> simp [lexeme, Lexeme.doubleString, hc]
  | compoundString => rcases hchar with rfl | rfl <;> simp [lexeme, Lexeme.compoundString, hc]
  | localMacro => simp [lexeme, Lexeme.localMacro, hc]
  | globalMacro => simp [lexeme, Lexeme.globalMacro, hc]
  | mataHead => simp [lexeme, Lexeme.mataHead, hc]
  | mataLine => rcases hchar with rfl | rfl <;> simp [lexeme, Lexeme.mataLine, hc]

theorem lexeme_kind_of_lineBreak {mode : Mode} (hm : mode ≠ .mataBrace) (fresh : Bool) {c : Char}
    (hc : isLineBreak c = true) (rest : List Char) : (mode.lexeme fresh (c :: rest)).kind = .newline := by
  rw [lexeme_of_lineBreak hm fresh hc]
  rfl

theorem lexeme_kind_cases (mode : Mode) (fresh : Bool) (c : Char) (rest : List Char) :
    (mode.lexeme fresh (c :: rest)).kind = .newline ∨
      (mode.lexeme fresh (c :: rest)).kind ∈ mode.kinds := by
  cases hc : isLineBreak c with
  | false => exact .inr (lexeme_kind_mem mode fresh hc rest)
  | true =>
    by_cases hm : mode = .mataBrace
    · subst hm; exact .inr (Lexeme.mataBrace_kind_mem c rest)
    · exact .inl (lexeme_kind_of_lineBreak hm fresh hc rest)

theorem lexeme_kind_eq_newline_iff {mode : Mode} (hm : mode ≠ .mataBrace) (fresh : Bool) (c : Char)
    (rest : List Char) : (mode.lexeme fresh (c :: rest)).kind = .newline ↔ isLineBreak c = true := by
  constructor
  · intro h
    cases hc : isLineBreak c with
    | true => rfl
    | false => exact absurd h (ne_newline_of_mem_kinds (lexeme_kind_mem mode fresh hc rest))
  · exact fun hc => lexeme_kind_of_lineBreak hm fresh hc rest

/-- Block comments stand in statements, and each begins with its opening. -/
theorem lexeme_blockComment_cases {mode : Mode} {fresh : Bool} {text : List Char}
    (hk : (mode.lexeme fresh text).kind = .blockComment) : mode = .statement ∧ ∃ tail, text = '/' :: '*' :: tail := by
  cases text with
  | nil => rw [lexeme_nil] at hk; cases hk
  | cons c rest =>
    have hm : mode = .statement := by
      have hmem := lexeme_kind_cases mode fresh c rest
      rw [hk] at hmem
      revert hmem
      cases mode <;> decide
    subst hm
    exact ⟨rfl, Lexeme.blockComment_cases hk⟩

/-- A dollar sign is a token of its own only where it opens a macro reference. -/
theorem lexeme_dollar_cases {mode : Mode} {fresh : Bool} {text : List Char}
    (hk : (mode.lexeme fresh text).kind = .dollar) :
    ∃ rest, text = '$' :: rest ∧ Lexeme.opensMacro rest = true ∧ (mode.lexeme fresh text).text = ['$'] := by
  cases text with
  | nil => rw [lexeme_nil] at hk; cases hk
  | cons c rest =>
    have hcases : c = '$' ∧ Lexeme.opensMacro rest = true ∧ (mode.lexeme fresh (c :: rest)).text = ['$'] := by
      cases mode with
      | statement =>
        simp only [lexeme, Lexeme.statement] at hk ⊢
        split at hk
        · cases hk
        · simp only at hk
          split at hk <;> cases hk
        · cases hk
        · cases hk
        · rename_i heq
          cases heq
          exact Lexeme.statementFrom_dollar_cases rfl hk
      | doubleString => exact Lexeme.doubleString_dollar_cases rfl hk
      | compoundString => exact Lexeme.compoundString_dollar_cases rfl hk
      | localMacro => exact Lexeme.localMacro_dollar_cases rfl hk
      | globalMacro | mataHead | mataLine | mataBrace =>
        have hmem := lexeme_kind_cases _ fresh c rest |>.resolve_left (by rw [hk]; decide)
        rw [hk] at hmem
        exact absurd hmem (by decide)
    obtain ⟨rfl, hopens, htext⟩ := hcases
    exact ⟨rest, rfl, hopens, htext⟩

theorem lexeme_kind_ne_eof (mode : Mode) (fresh : Bool) (c : Char) (rest : List Char) :
    (mode.lexeme fresh (c :: rest)).kind ≠ .eof := by
  rcases lexeme_kind_cases mode fresh c rest with h | h
  · rw [h]; decide
  · exact ne_eof_of_mem_kinds h

end Mode

end Dofile
