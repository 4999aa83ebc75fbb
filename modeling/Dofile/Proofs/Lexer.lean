import Dofile.Proofs.LexemeKind

/-!
# Lexers and the text they read

The token ahead of a lexer is a beginning of the rest of the text, and it is empty
exactly at the end. A lexer that stands in a text keeps standing in it, whatever
modes it is told to read in.
-/

namespace Dofile

theorem takeWhile_dropWhile {α : Type} (p : α → Bool) (l : List α) : (l.dropWhile p).takeWhile p = [] := by
  induction l with
  | nil => rfl
  | cons a l ih =>
    rw [List.dropWhile_cons]
    split
    · exact ih
    · rename_i h
      rw [List.takeWhile_cons_of_neg h]

namespace Lexer

/-! ## The token ahead -/

def kind (l : Lexer) : Kind := l.ahead.kind

def leading (l : Lexer) : List Char := if l.mode.skipsBlanks then l.rest.takeWhile isBlank else []

def body (l : Lexer) : List Char := l.rest.drop l.leading.length

theorem ahead_eq (l : Lexer) :
    l.ahead = ⟨l.offset, l.leading, (l.mode.lexeme l.fresh l.body).kind,
      (l.mode.lexeme l.fresh l.body).text⟩ := rfl

theorem kind_eq (l : Lexer) : l.kind = (l.mode.lexeme l.fresh l.body).kind := rfl

theorem leading_isPrefix (l : Lexer) : l.leading <+: l.rest := by
  unfold leading
  split
  · exact List.takeWhile_prefix _
  · exact List.nil_prefix

theorem leading_append_body (l : Lexer) : l.leading ++ l.body = l.rest :=
  List.prefix_iff_eq_append.mp l.leading_isPrefix

theorem isBlank_of_mem_leading {l : Lexer} {c : Char} (h : c ∈ l.leading) : isBlank c = true := by
  unfold leading at h
  split at h
  · exact List.all_eq_true.mp List.all_takeWhile c h
  · cases h

theorem body_of_skipsBlanks_eq_false {l : Lexer} (h : l.mode.skipsBlanks = false) : l.body = l.rest := by
  simp [body, leading, h]

theorem body_eq_dropWhile {l : Lexer} (h : l.mode.skipsBlanks = true) : l.body = l.rest.dropWhile isBlank := by
  have hl := l.leading_append_body
  have hsplit := List.takeWhile_append_dropWhile (p := isBlank) (l := l.rest)
  simp only [leading, h, if_true] at hl
  exact List.append_cancel_left (hl.trans hsplit.symm)

theorem kind_eq_eof_iff (l : Lexer) : l.kind = .eof ↔ l.body = [] := by
  rw [kind_eq]
  cases l.body with
  | nil => simp [Mode.lexeme_nil, Lexeme.endOfText]
  | cons c rest => simp [Mode.lexeme_kind_ne_eof]

theorem text_eq_nil_iff (l : Lexer) : l.ahead.text = [] ↔ l.kind = .eof := by
  rw [kind_eq_eof_iff, ahead_eq]
  cases l.body with
  | nil => simp [Mode.lexeme_nil, Lexeme.endOfText]
  | cons c rest => simp [(Mode.lexeme_begins l.mode l.fresh c rest).2]

theorem text_prefix_body (l : Lexer) : l.ahead.text <+: l.body := by
  rw [ahead_eq]
  cases h : l.body with
  | nil => simp [Mode.lexeme_nil, Lexeme.endOfText]
  | cons c rest => exact (Mode.lexeme_begins l.mode l.fresh c rest).1

/-- The token ahead, blanks included, and what follows it make up the rest of the text. -/
theorem fullText_append_after (l : Lexer) : l.ahead.fullText ++ l.after = l.rest := by
  apply List.prefix_iff_eq_append.mp
  have h : l.leading ++ l.ahead.text <+: l.leading ++ l.body :=
    (List.prefix_append_right_inj _).mpr l.text_prefix_body
  rwa [leading_append_body] at h

theorem text_append_after (l : Lexer) : l.ahead.text ++ l.after = l.body := by
  have h := l.fullText_append_after
  rw [← leading_append_body, Token.fullText, List.append_assoc] at h
  exact List.append_cancel_left h

theorem kind_cases (l : Lexer) : l.kind = .eof ∨ l.kind = .newline ∨ l.kind ∈ l.mode.kinds := by
  rw [kind_eq]
  cases l.body with
  | nil => exact .inl (by rw [Mode.lexeme_nil]; rfl)
  | cons c rest => exact .inr (Mode.lexeme_kind_cases l.mode l.fresh c rest)

theorem isNode_kind (l : Lexer) : l.kind.isNode = false := by
  rcases l.kind_cases with h | h | h
  · rw [h]; decide
  · rw [h]; decide
  · exact Mode.isNode_of_mem_kinds h

theorem kind_ne_whitespace (l : Lexer) : l.kind ≠ .whitespace := by
  rcases l.kind_cases with h | h | h
  · rw [h]; decide
  · rw [h]; decide
  · exact Mode.ne_whitespace_of_mem_kinds h

/-- Whether the token ahead is the same in a mode. The end of the text is so in any. -/
def SameIn (mode : Mode) (l : Lexer) : Prop := l.mode = mode ∨ l.kind = .eof

/-! ## Passing the token ahead -/

@[simp] theorem next_rest (l : Lexer) (mode : Mode) : (l.next mode).rest = l.after := rfl

@[simp] theorem next_mode (l : Lexer) (mode : Mode) : (l.next mode).mode = mode := rfl

@[simp] theorem next_offset (l : Lexer) (mode : Mode) : (l.next mode).offset = l.ahead.stop := rfl

@[simp] theorem relex_rest (l : Lexer) (mode : Mode) : (l.relex mode).rest = l.rest := rfl

@[simp] theorem relex_mode (l : Lexer) (mode : Mode) : (l.relex mode).mode = mode := rfl

@[simp] theorem relex_offset (l : Lexer) (mode : Mode) : (l.relex mode).offset = l.offset := rfl

/-- Every token but the end of the text takes something away. -/
theorem after_length_lt {l : Lexer} (h : l.kind ≠ .eof) : l.after.length < l.rest.length := by
  have htext : l.ahead.text ≠ [] := fun hn => h (l.text_eq_nil_iff.mp hn)
  have hlen := congrArg List.length l.fullText_append_after
  simp only [Token.fullText, List.length_append] at hlen
  have := List.length_pos_iff.mpr htext
  omega

theorem rest_ne_nil {l : Lexer} (h : l.kind ≠ .eof) : l.rest ≠ [] := by
  intro hn
  have := after_length_lt h
  simp [hn] at this

/-! ## Line ends -/

def EndsLine (l : Lexer) : Prop := l.kind = .newline ∨ l.kind = .eof

theorem ne_eof_of_not_endsLine {l : Lexer} (h : ¬ l.EndsLine) : l.kind ≠ .eof := fun he => h (.inr he)

def LineDone : List Char → Prop
  | [] => True
  | c :: _ => isLineBreak c = true

theorem isBlank_of_isLineBreak {c : Char} (h : isLineBreak c = true) : isBlank c = false := by
  simp only [isLineBreak, Bool.or_eq_true, beq_iff_eq] at h
  rcases h with rfl | rfl <;> decide

theorem leading_of_lineDone {l : Lexer} (h : LineDone l.rest) : l.leading = [] := by
  unfold leading
  split
  · cases hr : l.rest with
    | nil => rfl
    | cons c rest =>
      rw [hr] at h
      simp [isBlank_of_isLineBreak h]
  · rfl

theorem endsLine_of_lineDone {l : Lexer} (hm : l.mode ≠ .mataBrace) (h : LineDone l.rest) : l.EndsLine := by
  have hbody : l.body = l.rest := by simp [body, leading_of_lineDone h]
  cases hr : l.rest with
  | nil => exact .inr (l.kind_eq_eof_iff.mpr (hbody.trans hr))
  | cons c rest =>
    rw [hr] at h
    refine .inl ?_
    rw [kind_eq, hbody, hr]
    exact Mode.lexeme_kind_of_lineBreak hm l.fresh h rest

theorem lineDone_of_endsLine {l : Lexer} (hm : l.mode ≠ .mataBrace) (hs : l.mode.skipsBlanks = false)
    (h : l.EndsLine) : LineDone l.rest := by
  have hbody := body_of_skipsBlanks_eq_false hs
  unfold EndsLine at h
  rw [kind_eq_eof_iff, kind_eq, hbody] at h
  cases hr : l.rest with
  | nil => trivial
  | cons c rest =>
    rw [hr] at h
    simp only [reduceCtorEq, or_false] at h
    exact (Mode.lexeme_kind_eq_newline_iff hm l.fresh c rest).mp h

theorem read_nil (mode : Mode) (offset : Nat) (fresh : Bool) :
    Token.read mode offset fresh [] = ⟨offset, [], .eof, []⟩ := by
  simp [Token.read, Mode.lexeme_nil, Lexeme.endOfText]

theorem read_lineBreak {mode : Mode} (hm : mode ≠ .mataBrace) (offset : Nat) (fresh : Bool) {c : Char}
    (hc : isLineBreak c = true) (rest : List Char) :
    Token.read mode offset fresh (c :: rest) = ⟨offset, [], .newline, (Lexeme.lineBreak c rest).text⟩ := by
  have hleading : (if mode.skipsBlanks then (c :: rest).takeWhile isBlank else []) = [] := by
    simp [isBlank_of_isLineBreak hc]
  simp only [Token.read, hleading, List.length_nil, List.drop_zero, Mode.lexeme_of_lineBreak hm fresh hc]
  rfl

/-- Where a line is done, all modes but one agree on the token ahead. -/
theorem ahead_relex_of_lineDone {l : Lexer} {mode : Mode} (hm : l.mode ≠ .mataBrace) (hmode : mode ≠ .mataBrace)
    (h : LineDone l.rest) : (l.relex mode).ahead = l.ahead := by
  change Token.read mode l.offset l.fresh l.rest = Token.read l.mode l.offset l.fresh l.rest
  cases hrest : l.rest with
  | nil => rw [read_nil, read_nil]
  | cons c rest =>
    rw [hrest] at h
    rw [read_lineBreak hmode l.offset l.fresh h, read_lineBreak hm l.offset l.fresh h]

/-! ## Block comments and dollar signs -/

theorem text_of_blockComment {l : Lexer} (h : l.kind = .blockComment) : l.mode = .statement ∧
    ∃ tail, l.body = '/' :: '*' :: tail ∧ l.ahead.text = '/' :: '*' :: Lexeme.blockCommentTail tail := by
  obtain ⟨hmode, tail, hbody⟩ := Mode.lexeme_blockComment_cases (l.kind_eq.symm.trans h)
  refine ⟨hmode, tail, hbody, ?_⟩
  rw [ahead_eq, hbody, hmode]
  rfl

theorem text_of_dollar {l : Lexer} (h : l.kind = .dollar) : l.ahead.text = ['$'] := by
  rw [kind_eq] at h
  obtain ⟨_, -, -, htext⟩ := Mode.lexeme_dollar_cases h
  exact htext

/-- What is behind the dollar sign of a macro reference begins a name, or is a brace. -/
theorem next_of_dollar {l : Lexer} (h : l.kind = .dollar) :
    (l.next .globalMacro).kind = .ident ∨ (l.next .globalMacro).kind = .leftBrace := by
  have htext := text_of_dollar h
  have hbody := l.text_append_after
  rw [kind_eq] at h
  obtain ⟨rest, hrest, hopens, -⟩ := Mode.lexeme_dollar_cases h
  rw [htext, hrest] at hbody
  obtain ⟨c, hc, hstart⟩ := (Option.any_eq_true _ _).mp hopens
  obtain ⟨tail, htail⟩ := List.head?_eq_some_iff.mp hc
  have hafter : l.after = rest := (List.cons.inj hbody).2
  have hnext : (l.next .globalMacro).body = c :: tail := by
    rw [body_of_skipsBlanks_eq_false rfl, next_rest, hafter, htail]
  rw [kind_eq, hnext, next_mode]
  by_cases hbrace : c = '{'
  · subst hbrace
    exact .inr rfl
  · have hword : isWordStart c = true := by simpa [hbrace] using hstart
    have hclose : c ≠ '}' := fun e => by rw [e] at hword; exact absurd hword (by decide)
    simp [Mode.lexeme, Lexeme.globalMacro, Lexeme.not_lineBreak_of_wordStart hword, hbrace, hclose, hword]

end Lexer

end Dofile
