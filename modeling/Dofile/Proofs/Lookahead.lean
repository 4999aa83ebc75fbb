import Dofile.Grammar.Statement
import Dofile.Proofs.Account

/-!
# What the rules see ahead in the text

Two of the rules for statements look at the text behind a word, not at its tokens. What they look for is a word or
a colon, and these can be told by their first character, so the text tells just what the tokens behind the word are.
-/

namespace Dofile

open Grammar (prefixApplies atProgramSubcommand programSubcommands)

namespace Word

theorem mem_kinds_iff (kind : Kind) :
    kinds.contains kind = true ↔ kind ∈ [.ident, .builtinVariable, .controlKeyword, .typeKeyword] := by
  cases kind with
  | localMacro label => revert label; decide
  | compoundString label => revert label; decide
  | _ => decide

theorem kind_of_classify (word : List Char) : kinds.contains (classify word) = true := by
  unfold classify
  split; · decide
  split; · decide
  split <;> decide

theorem isOneOf_iff {words : List String} {text : List Char} :
    isOneOf words text = true ↔ text ∈ words.map String.toList := by
  rw [isOneOf, List.contains_iff_mem, List.mem_map]
  constructor
  · exact fun h => ⟨_, h, String.toList_ofList⟩
  · rintro ⟨word, hword, rfl⟩
    rwa [String.ofList_toList]

end Word

/-! ## First characters -/

namespace Lexeme

/-- The kinds of what begins neither a word nor a colon. -/
def otherKinds : List Kind :=
  [.newline, .lineComment, .continuationComment, .starComment, .blockComment, .doubleQuote, .compoundOpen, .backtick,
    .dollar, .number, .missingValue, .operator, .hash, .leftParen, .rightParen, .leftBracket, .rightBracket, .leftBrace,
    .rightBrace, .comma, .other, .unknown]

theorem not_word_of_mem_otherKinds {kind : Kind} (h : kind ∈ otherKinds) :
    Word.kinds.contains kind = false ∧ kind ≠ .colon := by
  revert kind
  decide

theorem punctuation_mem_otherKinds {c : Char} (hc : c ≠ ':') {kind : Kind} (h : punctuation? c = some kind) :
    kind ∈ otherKinds := by
  unfold punctuation? at h
  split at h <;> cases h <;> first | decide | exact absurd rfl hc

theorem dot_mem_otherKinds (rest : List Char) : (dot rest).kind ∈ otherKinds := by
  unfold dot
  split
  · simp [otherKinds]
  · exact kind_ite_mem (by simp [otherKinds]) (kind_ite_mem (by simp [otherKinds]) (by simp [otherKinds]))

section
variable {c : Char} (hword : isWordStart c = false) (hcolon : c ≠ ':')
include hword hcolon

theorem statementFrom_mem_otherKinds (fresh : Bool) (rest : List Char) :
    (statementFrom fresh c rest).kind ∈ otherKinds := by
  rw [statementFrom]
  apply kind_ite_mem (by simp [otherKinds, lineBreak])
  apply kind_ite_mem (by simp [otherKinds])
  apply kind_ite_mem (by simp [otherKinds])
  apply kind_ite_mem (by simp [otherKinds])
  apply kind_ite_mem (by simp [otherKinds])
  apply kind_ite_mem (by simp [otherKinds])
  apply kind_ite_mem (dot_mem_otherKinds rest)
  rw [if_neg (Bool.eq_false_iff.mp hword)]
  cases hp : punctuation? c with
  | some kind => exact punctuation_mem_otherKinds hcolon hp
  | none =>
    apply kind_ite_mem (by simp [otherKinds])
    apply kind_ite_mem (by simp [otherKinds])
    apply kind_ite_mem (by simp [otherKinds])
    simp [otherKinds]

theorem statement_mem_otherKinds (fresh : Bool) (rest : List Char) :
    (statement fresh (c :: rest)).kind ∈ otherKinds := by
  unfold statement
  split
  · rename_i heq; cases heq
  · simp only
    split <;> simp [otherKinds]
  · simp [otherKinds]
  · simp [otherKinds]
  · rename_i heq
    cases heq
    exact statementFrom_mem_otherKinds hword hcolon fresh rest

end

end Lexeme

/-! ## The token ahead -/

namespace Lexer

variable {l : Lexer}

theorem not_isWord_of_colon (h : l.kind = .colon) : ¬ l.IsWord := by
  rw [IsWord, h]
  decide

inductive FirstCase (l : Lexer) : Prop
  | done (he : l.kind = .eof) (hbody : l.body = [])
  | word {c : Char} {rest : List Char} (hbody : l.body = c :: rest) (hc : isWordStart c = true) (hword : l.IsWord)
      (htext : l.ahead.text = c :: Lexeme.restOfWord rest)
  | colon {rest : List Char} (hbody : l.body = ':' :: rest) (hk : l.kind = .colon) (htext : l.ahead.text = [':'])
  | other {c : Char} {rest : List Char} (hbody : l.body = c :: rest) (hc : isWordStart c = false) (hcolon : c ≠ ':')
      (hword : ¬ l.IsWord) (hk : l.kind ≠ .colon)

section
variable (hm : l.mode = .statement)
include hm

theorem firstCase : l.FirstCase := by
  have hkind : l.kind = (Lexeme.statement l.fresh l.body).kind := by rw [kind_eq, hm]; rfl
  have htext : l.ahead.text = (Lexeme.statement l.fresh l.body).text := by rw [ahead_eq, hm]; rfl
  cases hbody : l.body with
  | nil => exact .done (l.kind_eq_eof_iff.mpr hbody) hbody
  | cons c rest =>
    rw [hbody] at hkind htext
    cases hc : isWordStart c with
    | true =>
      rw [Lexeme.statement_of_wordStart hc] at hkind htext
      exact .word hbody hc (by rw [IsWord, hkind]; exact Word.kind_of_classify _) htext
    | false =>
      by_cases hcolon : c = ':'
      · subst hcolon
        rw [Lexeme.statement_colon] at hkind htext
        exact .colon hbody hkind htext
      · have hother := Lexeme.not_word_of_mem_otherKinds (Lexeme.statement_mem_otherKinds hc hcolon l.fresh rest)
        rw [← hkind] at hother
        exact .other hbody hc hcolon (Bool.eq_false_iff.mp hother.1) hother.2

theorem isWord_iff : l.IsWord ↔ l.body.head?.any isWordStart = true := by
  cases firstCase hm with
  | done he hbody =>
    rw [hbody]
    exact iff_of_false (fun hword => hword.ne_eof he) Bool.false_ne_true
  | word hbody hc hword => simp [hbody, hc, hword]
  | colon hbody hk =>
    rw [hbody]
    exact iff_of_false (not_isWord_of_colon hk) (show ¬ isWordStart ':' = true by decide)
  | other hbody hc _ hword => simp [hbody, hc, hword]

theorem kind_eq_colon_iff : l.kind = .colon ↔ l.body.head? = some ':' := by
  cases firstCase hm with
  | done he hbody => simp [hbody, he]
  | word hbody hc hword =>
    rw [hbody, List.head?_cons, Option.some.injEq]
    refine iff_of_false (fun hk => not_isWord_of_colon hk hword) fun he => ?_
    rw [he] at hc
    exact absurd hc (by decide)
  | colon hbody hk => simp [hbody, hk]
  | other hbody _ hcolon _ hk => simp [hbody, hcolon, hk]

theorem text_of_isWord (h : l.IsWord) : l.ahead.text = l.body.takeWhile isWordPart := by
  cases firstCase hm with
  | done he => exact absurd he h.ne_eof
  | word hbody hc _ htext =>
    rw [htext, hbody, List.takeWhile_cons_of_pos (isWordPart_of_isWordStart hc)]
    rfl
  | colon _ hk => exact absurd h (not_isWord_of_colon hk)
  | other _ _ _ hword => exact absurd h hword

theorem after_of_colon (h : l.kind = .colon) : l.after = l.body.tail := by
  have htext : l.ahead.text = [':'] := by
    cases firstCase hm with
    | done he =>
      rw [h] at he
      cases he
    | word _ _ hword => exact absurd hword (not_isWord_of_colon h)
    | colon _ _ htext => exact htext
    | other _ _ _ _ hk => exact absurd h hk
  rw [← l.text_append_after, htext]
  rfl

end

end Lexer

/-! ## The text behind a word -/

theorem Lexer.body_next (l : Lexer) : (l.next .statement).body = l.after.dropWhile isBlank :=
  body_eq_dropWhile rfl

/-- A prefix applies where a word comes next, or a colon and then a word. -/
theorem Grammar.prefixApplies_iff (l : Lexer) : prefixApplies l.after = true ↔
    (l.next .statement).IsWord ∨ (l.next .statement).kind = .colon ∧ ((l.next .statement).next .statement).IsWord := by
  have hmode (l : Lexer) : (l.next .statement).mode = .statement := rfl
  simp only [prefixApplies]
  rw [← l.body_next]
  by_cases hcolon : (l.next .statement).kind = .colon
  · have hnot := Lexer.not_isWord_of_colon hcolon
    have hhead := (Lexer.kind_eq_colon_iff (hmode l)).mp hcolon
    rw [Lexer.isWord_iff (hmode (l.next .statement)), (l.next .statement).body_next,
      Lexer.after_of_colon (hmode l) hcolon]
    simp [hhead, hcolon, hnot]
  · have hhead := mt (Lexer.kind_eq_colon_iff (hmode l)).mpr hcolon
    rw [Lexer.isWord_iff (hmode l)]
    simp [hhead, hcolon]

theorem Grammar.programSubcommands_begin :
    ∀ word ∈ programSubcommands.map String.toList, word.head?.any isWordStart = true := by
  decide

/-- What follows `program` is a subcommand where the next token is one of the words for them. -/
theorem Grammar.atProgramSubcommand_iff (l : Lexer) : atProgramSubcommand l.after = true ↔
    (l.next .statement).IsWordOf programSubcommands := by
  have hmode : (l.next .statement).mode = .statement := rfl
  rw [atProgramSubcommand, ← l.body_next, Lexer.IsWordOf]
  constructor
  · intro h
    have hword : (l.next .statement).IsWord := by
      have hhead := programSubcommands_begin _ (Word.isOneOf_iff.mp h)
      rw [List.head?_takeWhile] at hhead
      obtain ⟨c, hc, hstart⟩ := (Option.any_eq_true _ _).mp hhead
      exact (Lexer.isWord_iff hmode).mpr ((Option.any_eq_true _ _).mpr ⟨c, (Option.filter_eq_some_iff.mp hc).1, hstart⟩)
    exact ⟨hword, Lexer.text_of_isWord hmode hword ▸ h⟩
  · rintro ⟨hword, h⟩
    exact Lexer.text_of_isWord hmode hword ▸ h

end Dofile
