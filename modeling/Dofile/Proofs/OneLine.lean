import Dofile.Proofs.LineEnd

/-!
# Tokens of one line

Apart from line breaks, comments and the content in braces every token is within one
line. So of the tokens of a text that ends with a line feed only these three can be
the last.
-/

namespace Dofile

def OneLine (text : List Char) : Prop := ∀ c ∈ text, isLineBreak c = false

theorem oneLine_nil : OneLine [] := fun _ h => by cases h

theorem OneLine.cons {c : Char} {text : List Char} (hc : isLineBreak c = false) (h : OneLine text) :
    OneLine (c :: text) := by
  intro d hd
  rcases List.mem_cons.mp hd with rfl | hd
  · exact hc
  · exact h d hd

theorem OneLine.append {a b : List Char} (ha : OneLine a) (hb : OneLine b) : OneLine (a ++ b) :=
  fun c hc => (List.mem_append.mp hc).elim (ha c) (hb c)

theorem oneLine_takeWhile {p : Char → Bool} (hn : p '\n' = false) (hr : p '\r' = false) (text : List Char) :
    OneLine (text.takeWhile p) := by
  intro c hc
  have hp := List.all_eq_true.mp List.all_takeWhile c hc
  cases hb : isLineBreak c with
  | false => rfl
  | true =>
    simp only [isLineBreak, Bool.or_eq_true, beq_iff_eq] at hb
    rcases hb with rfl | rfl
    · rw [hn] at hp; cases hp
    · rw [hr] at hp; cases hp

theorem OneLine.not_lineEnded {text : List Char} (h : OneLine text) : ¬ LineEnded text := fun he =>
  absurd (h '\n' (List.mem_of_getLast? he)) (by decide)

namespace Lexeme

theorem oneLine_ite {p : Prop} [Decidable p] {a b : Lexeme} (ha : p → OneLine a.text) (hb : ¬ p → OneLine b.text) :
    OneLine (if p then a else b).text := by
  by_cases h : p
  · rw [if_pos h]; exact ha h
  · rw [if_neg h]; exact hb h

theorem oneLine_restOfLine (text : List Char) : OneLine (restOfLine text) := oneLine_takeWhile rfl rfl text

theorem oneLine_restOfWord (text : List Char) : OneLine (restOfWord text) := oneLine_takeWhile rfl rfl text

theorem oneLine_digits (text : List Char) : OneLine (digits text) := oneLine_takeWhile rfl rfl text

theorem oneLine_otherRun (text : List Char) : OneLine (otherRun text) := oneLine_takeWhile rfl rfl text

theorem oneLine_textRun (stop : Char → Bool) (text : List Char) : OneLine (textRun stop text) := by
  induction text with
  | nil => exact oneLine_nil
  | cons c rest ih =>
    rw [textRun]
    split
    · exact oneLine_nil
    · rename_i h
      refine .cons ?_ ih
      simp only [Bool.or_eq_true, not_or, Bool.not_eq_true] at h
      exact h.1.1

theorem oneLine_exponent (text : List Char) : OneLine (exponent text) := by
  cases text with
  | nil => exact oneLine_nil
  | cons e rest =>
    simp only [exponent]
    split
    · rename_i h
      have he : isLineBreak e = false := by
        simp only [Bool.and_eq_true, Bool.or_eq_true, beq_iff_eq] at h
        rcases h.1 with rfl | rfl <;> rfl
      have hsign : OneLine (sign rest) := by
        unfold sign
        split
        · exact .cons rfl oneLine_nil
        · exact .cons rfl oneLine_nil
        · exact oneLine_nil
      exact .cons he (hsign.append (oneLine_digits _))
    · exact oneLine_nil

theorem oneLine_number (text : List Char) : OneLine (number text) := by
  unfold number
  simp only
  split
  · exact ((oneLine_digits _).append (.cons rfl (oneLine_digits _))).append (oneLine_exponent _)
  · exact (oneLine_digits _).append (oneLine_exponent _)

theorem oneLine_singleton {c : Char} (h : isLineBreak c = false) : OneLine [c] := .cons h oneLine_nil

theorem oneLine_dot (rest : List Char) : OneLine (dot rest).text := by
  unfold dot
  split
  · exact oneLine_singleton rfl
  · rename_i c rest
    apply oneLine_ite (fun _ => .cons rfl ((oneLine_digits _).append (oneLine_exponent _))); intro _
    refine oneLine_ite (fun h => ?_) fun _ => oneLine_singleton rfl
    refine .cons rfl (oneLine_singleton ?_)
    cases hb : isLineBreak c with
    | false => rfl
    | true =>
      simp only [isLineBreak, Bool.or_eq_true, beq_iff_eq] at hb
      have hlower := ((Bool.and_eq_true _ _).mp h).1
      rcases hb with rfl | rfl <;> exact absurd hlower (by decide)

section
variable {c : Char} (hc : isLineBreak c = false) (rest : List Char)
include hc

theorem oneLine_statementFrom (fresh : Bool) : OneLine (statementFrom fresh c rest).text := by
  unfold statementFrom
  rw [if_neg (Bool.eq_false_iff.mp hc)]
  apply oneLine_ite (fun _ => .cons hc (oneLine_restOfLine rest)); intro _
  apply oneLine_ite (fun _ => oneLine_singleton hc); intro _
  apply oneLine_ite (fun _ => oneLine_singleton hc); intro _
  apply oneLine_ite (fun _ => oneLine_singleton hc); intro _
  apply oneLine_ite (fun _ => oneLine_number _); intro _
  apply oneLine_ite (fun _ => oneLine_dot rest); intro _
  apply oneLine_ite (fun _ => .cons hc (oneLine_restOfWord rest)); intro _
  cases punctuation? c with
  | some kind => exact oneLine_singleton hc
  | none =>
    refine oneLine_ite (fun _ => ?_) fun _ => ?_
    · split
      · exact .cons hc (oneLine_singleton rfl)
      · exact oneLine_singleton hc
    apply oneLine_ite (fun _ => oneLine_singleton hc); intro _
    apply oneLine_ite (fun _ => oneLine_singleton hc); intro _
    exact .cons hc (oneLine_otherRun rest)

theorem oneLine_statement (fresh : Bool) (hk : (statement fresh (c :: rest)).kind ≠ .blockComment) :
    OneLine (statement fresh (c :: rest)).text := by
  revert hk
  unfold statement
  split
  · rename_i heq; cases heq
  · exact fun _ => .cons rfl (.cons rfl (oneLine_restOfLine _))
  · exact fun hk => absurd rfl hk
  · exact fun _ => .cons rfl (oneLine_singleton rfl)
  · rename_i heq; cases heq
    exact fun _ => oneLine_statementFrom hc rest fresh

theorem oneLine_doubleString : OneLine (doubleString (c :: rest)).text := by
  unfold doubleString
  split
  · rename_i heq; cases heq
  · exact .cons rfl (oneLine_singleton rfl)
  · rename_i heq; cases heq
    rw [if_neg (Bool.eq_false_iff.mp hc)]
    apply oneLine_ite (fun _ => oneLine_singleton hc); intro _
    apply oneLine_ite (fun _ => oneLine_singleton hc); intro _
    split
    · apply oneLine_ite (fun _ => .cons hc (oneLine_textRun _ _)); intro hn
      exact .cons hc (oneLine_singleton (Bool.eq_false_iff.mpr hn))
    · exact .cons hc (oneLine_textRun _ _)

theorem oneLine_compoundString : OneLine (compoundString (c :: rest)).text := by
  unfold compoundString
  split
  · rename_i heq; cases heq
  · exact .cons rfl (oneLine_singleton rfl)
  · exact .cons rfl (oneLine_singleton rfl)
  · rename_i heq; cases heq
    rw [if_neg (Bool.eq_false_iff.mp hc)]
    apply oneLine_ite (fun _ => oneLine_singleton hc); intro _
    apply oneLine_ite (fun _ => oneLine_singleton hc); intro _
    apply oneLine_ite (fun _ => oneLine_singleton hc); intro _
    exact .cons hc (oneLine_textRun _ _)

theorem oneLine_localMacro : OneLine (localMacro (c :: rest)).text := by
  rw [localMacro, if_neg (Bool.eq_false_iff.mp hc)]
  apply oneLine_ite (fun _ => oneLine_singleton hc); intro _
  apply oneLine_ite (fun _ => oneLine_singleton hc); intro _
  apply oneLine_ite (fun _ => oneLine_singleton hc); intro _
  apply oneLine_ite (fun _ => oneLine_singleton hc); intro _
  apply oneLine_ite (fun _ => .cons hc (oneLine_restOfWord rest)); intro _
  apply oneLine_ite (fun _ => .cons hc (oneLine_digits rest)); intro _
  exact .cons hc (oneLine_textRun _ _)

theorem oneLine_globalMacro : OneLine (globalMacro (c :: rest)).text := by
  rw [globalMacro, if_neg (Bool.eq_false_iff.mp hc)]
  apply oneLine_ite (fun _ => oneLine_singleton hc); intro _
  apply oneLine_ite (fun _ => oneLine_singleton hc); intro _
  apply oneLine_ite (fun _ => .cons hc (oneLine_restOfWord rest)); intro _
  exact oneLine_singleton hc

theorem oneLine_mataHead : OneLine (mataHead (c :: rest)).text := by
  rw [mataHead, if_neg (Bool.eq_false_iff.mp hc)]
  apply oneLine_ite (fun _ => oneLine_singleton hc); intro _
  apply oneLine_ite (fun _ => oneLine_singleton hc); intro _
  exact .cons hc (oneLine_restOfLine rest)

theorem oneLine_mataLine : OneLine (mataLine (c :: rest)).text := by
  unfold mataLine
  apply oneLine_ite (fun _ => .cons rfl (.cons rfl (oneLine_singleton rfl))); intro _
  rw [if_neg (Bool.eq_false_iff.mp hc)]
  exact .cons hc (oneLine_restOfLine rest)

end

end Lexeme

namespace Mode

/-- All tokens but line breaks, block comments and the content in braces stand on one line. -/
theorem oneLine_lexeme {mode : Mode} (hm : mode ≠ .mataBrace) (fresh : Bool) {c : Char} (hc : isLineBreak c = false)
    (rest : List Char) (hk : (mode.lexeme fresh (c :: rest)).kind ≠ .blockComment) :
    OneLine (mode.lexeme fresh (c :: rest)).text := by
  cases mode with
  | statement => exact Lexeme.oneLine_statement hc rest fresh hk
  | doubleString => exact Lexeme.oneLine_doubleString hc rest
  | compoundString => exact Lexeme.oneLine_compoundString hc rest
  | localMacro => exact Lexeme.oneLine_localMacro hc rest
  | globalMacro => exact Lexeme.oneLine_globalMacro hc rest
  | mataHead => exact Lexeme.oneLine_mataHead hc rest
  | mataLine => exact Lexeme.oneLine_mataLine hc rest
  | mataBrace => exact absurd rfl hm

/-- Only comments and the content in braces go on to the end of a text that ends with a
line feed. -/
theorem kind_of_takesAll {mode : Mode} {fresh : Bool} {text : List Char} (h : LineEnded text)
    (ht : (mode.lexeme fresh text).TakesAll text) :
    mode = .statement ∧ (mode.lexeme fresh text).kind = .blockComment ∨
      mode = .mataBrace ∧ (mode.lexeme fresh text).kind = .mataContent := by
  obtain ⟨hall, hk⟩ := ht
  obtain ⟨c, rest, rfl⟩ := List.exists_cons_of_ne_nil h.ne_nil
  -- a token that is all of the text ends with its line feed
  have hone : ¬ OneLine (mode.lexeme fresh (c :: rest)).text := fun ho => ho.not_lineEnded (by rwa [hall])
  by_cases hm : mode = .mataBrace
  · subst hm
    refine .inr ⟨rfl, ?_⟩
    by_cases hc : c = '}'
    · subst hc
      exact absurd (Lexeme.oneLine_singleton rfl) hone
    · exact congrArg Lexeme.kind (Lexeme.mataBrace_cons hc rest)
  have hc : isLineBreak c = false := by
    cases hb : isLineBreak c with
    | false => rfl
    | true => exact absurd (lexeme_kind_of_lineBreak hm fresh hb rest) hk
  have hcomment : (mode.lexeme fresh (c :: rest)).kind = .blockComment :=
    Classical.byContradiction fun hne => hone (oneLine_lexeme hm fresh hc rest hne)
  exact .inl ⟨(lexeme_blockComment_cases hcomment).1, hcomment⟩

end Mode

def Kind.acrossLines : List Kind := [.newline, .blockComment, .mataContent]

theorem Lexer.oneLine_text {l : Lexer} (hk : l.kind ∉ Kind.acrossLines) : OneLine l.ahead.text := by
  simp only [Kind.acrossLines, List.mem_cons, List.not_mem_nil, or_false, not_or, kind_eq] at hk
  rw [ahead_eq]
  obtain ⟨hn, hb, hc⟩ := hk
  cases hbody : l.body with
  | nil => rw [Mode.lexeme_nil]; exact oneLine_nil
  | cons c rest =>
    rw [hbody] at hn hb hc
    by_cases hm : l.mode = .mataBrace
    · rw [hm] at hc ⊢
      by_cases hbrace : c = '}'
      · subst hbrace
        exact Lexeme.oneLine_singleton rfl
      · exact absurd (congrArg Lexeme.kind (Lexeme.mataBrace_cons hbrace rest)) hc
    · cases hline : isLineBreak c with
      | true => exact absurd (Mode.lexeme_kind_of_lineBreak hm l.fresh hline rest) hn
      | false => exact Mode.oneLine_lexeme hm l.fresh hline rest hb

end Dofile
