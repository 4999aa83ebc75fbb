import Dofile.Token.Lexer

/-!
# What scanners owe to the text

Wherever text is left, each scanner reads a nonempty beginning of it, and labels
it with a kind of its mode, which is never that of the end of the text.
-/

namespace Dofile

namespace Lexeme

/-! ## Runs of characters -/

def Begins (lexeme : Lexeme) (text : List Char) : Prop := lexeme.text <+: text ∧ lexeme.text ≠ []

theorem begins_cons {kind : Kind} {c : Char} {run rest : List Char} (h : run <+: rest) :
    Begins ⟨kind, c :: run⟩ (c :: rest) :=
  ⟨List.cons_prefix_cons.mpr ⟨rfl, h⟩, by simp⟩

theorem begins_singleton (kind : Kind) (c : Char) (rest : List Char) :
    Begins ⟨kind, [c]⟩ (c :: rest) := begins_cons List.nil_prefix

theorem begins_pair (kind : Kind) (c d : Char) (rest : List Char) :
    Begins ⟨kind, [c, d]⟩ (c :: d :: rest) :=
  begins_cons (List.cons_prefix_cons.mpr ⟨rfl, List.nil_prefix⟩)

theorem begins_ite {p : Prop} [Decidable p] {a b : Lexeme} {text : List Char}
    (ha : p → a.Begins text) (hb : ¬ p → b.Begins text) : (if p then a else b).Begins text := by
  by_cases h : p
  · rw [if_pos h]; exact ha h
  · rw [if_neg h]; exact hb h

theorem restOfLine_isPrefix (text : List Char) : restOfLine text <+: text := List.takeWhile_prefix _

theorem restOfWord_isPrefix (text : List Char) : restOfWord text <+: text := List.takeWhile_prefix _

theorem digits_isPrefix (text : List Char) : digits text <+: text := List.takeWhile_prefix _

theorem otherRun_isPrefix (text : List Char) : otherRun text <+: text := List.takeWhile_prefix _

theorem blockCommentTail_isPrefix (text : List Char) : blockCommentTail text <+: text := by
  fun_induction blockCommentTail text with
  | case1 => exact List.nil_prefix
  | case2 => simp
  | case3 c rest _ ih => exact List.cons_prefix_cons.mpr ⟨rfl, ih⟩

theorem blockCommentTail_cons {c : Char} {rest : List Char} (h : ¬ ['*', '/'] <+: c :: rest) :
    blockCommentTail (c :: rest) = c :: blockCommentTail rest := by
  refine blockCommentTail.eq_3 c rest fun tail hc hrest => h ?_
  rw [hc, hrest]
  exact ⟨tail, rfl⟩

theorem braceContent_cons {c : Char} (hc : c ≠ '}') (depth : Nat) (rest : List Char) :
    braceContent depth (c :: rest) = c :: braceContent (if c == '{' then depth + 1 else depth) rest := by
  rw [braceContent.eq_def]
  split <;> simp_all

theorem mataBrace_cons {c : Char} (hc : c ≠ '}') (rest : List Char) :
    mataBrace (c :: rest) = ⟨.mataContent, braceContent 0 (c :: rest)⟩ := by
  unfold mataBrace
  split <;> simp_all

theorem braceContent_isPrefix (depth : Nat) (text : List Char) : braceContent depth text <+: text := by
  fun_induction braceContent depth text with
  | case1 => exact List.nil_prefix
  | case2 => exact List.nil_prefix
  | case3 depth rest ih => exact List.cons_prefix_cons.mpr ⟨rfl, ih⟩
  | case4 depth c rest _ _ ih => exact List.cons_prefix_cons.mpr ⟨rfl, ih⟩

/-- Two pieces that follow each other in a text begin it together. -/
theorem append_prefix_of_drop {a b text : List Char} (ha : a <+: text) (hb : b <+: text.drop a.length) :
    a ++ b <+: text := by
  obtain ⟨t, rfl⟩ := ha
  rw [List.drop_left] at hb
  exact (List.prefix_append_right_inj a).mpr hb

theorem sign_isPrefix (text : List Char) : sign text <+: text := by
  unfold sign
  split <;> simp

theorem exponent_isPrefix (text : List Char) : exponent text <+: text := by
  cases text with
  | nil => exact List.nil_prefix
  | cons e rest =>
    simp only [exponent]
    split
    · rw [List.cons_append]
      refine List.cons_prefix_cons.mpr ⟨rfl, ?_⟩
      exact append_prefix_of_drop (sign_isPrefix rest) (digits_isPrefix _)
    · exact List.nil_prefix

theorem number_isPrefix (text : List Char) : number text <+: text := by
  unfold number
  have hw := digits_isPrefix text
  simp only
  split
  · rename_i rest heq
    rw [List.append_assoc]
    apply append_prefix_of_drop hw
    rw [heq, List.cons_append]
    refine List.cons_prefix_cons.mpr ⟨rfl, ?_⟩
    exact append_prefix_of_drop (digits_isPrefix rest) (exponent_isPrefix _)
  · exact append_prefix_of_drop hw (exponent_isPrefix _)

theorem number_ne_nil {c : Char} (hc : c.isDigit = true) (rest : List Char) : number (c :: rest) ≠ [] := by
  unfold number
  simp only [digits, List.takeWhile_cons, hc, if_true]
  split <;> simp

theorem lineBreak_begins (c : Char) (rest : List Char) : Begins (lineBreak c rest) (c :: rest) := by
  unfold lineBreak
  split
  · rename_i h
    cases rest with
    | nil => simp at h
    | cons d rest =>
      simp only [List.head?_cons, Bool.and_eq_true, beq_iff_eq, Option.some.injEq] at h
      obtain ⟨rfl, rfl⟩ := h
      exact begins_pair _ _ _ _
  · exact begins_singleton _ _ _

/-! ## Statements -/

theorem dot_begins (rest : List Char) : Begins (dot rest) ('.' :: rest) := by
  unfold dot
  split
  · exact begins_singleton _ _ _
  · rename_i c rest
    split
    · rw [List.cons_append]
      exact begins_cons (append_prefix_of_drop (digits_isPrefix _) (exponent_isPrefix _))
    · split
      · exact begins_pair _ _ _ _
      · exact begins_singleton _ _ _

theorem statementFrom_begins (fresh : Bool) (c : Char) (rest : List Char) :
    Begins (statementFrom fresh c rest) (c :: rest) := by
  unfold statementFrom
  -- one step for each test of the scanner, in its order
  apply begins_ite (fun _ => lineBreak_begins c rest); intro _
  apply begins_ite (fun _ => begins_cons (restOfLine_isPrefix rest)); intro _
  apply begins_ite (fun _ => begins_singleton _ _ _); intro _
  apply begins_ite (fun _ => begins_singleton _ _ _); intro _
  apply begins_ite (fun _ => begins_singleton _ _ _); intro _
  apply begins_ite (fun hc => ⟨number_isPrefix _, number_ne_nil hc rest⟩); intro _
  refine begins_ite (fun hc => ?_) fun _ => ?_
  · rw [beq_iff_eq] at hc
    subst hc
    exact dot_begins rest
  apply begins_ite (fun _ => begins_cons (restOfWord_isPrefix rest)); intro _
  cases punctuation? c with
  | some kind => exact begins_singleton _ _ _
  | none =>
    refine begins_ite (fun _ => ?_) fun _ => ?_
    · split
      · rename_i h
        cases rest with
        | nil => simp at h
        | cons d rest =>
          simp only [List.head?_cons, beq_iff_eq, Option.some.injEq] at h
          subst h
          exact begins_pair _ _ _ _
      · exact begins_singleton _ _ _
    apply begins_ite (fun _ => begins_singleton _ _ _); intro _
    apply begins_ite (fun _ => begins_singleton _ _ _); intro _
    exact begins_cons (otherRun_isPrefix rest)

theorem statement_begins (fresh : Bool) (c : Char) (rest : List Char) :
    Begins (statement fresh (c :: rest)) (c :: rest) := by
  unfold statement
  split
  · rename_i heq; cases heq
  · rename_i tail heq
    cases heq
    exact begins_cons (List.cons_prefix_cons.mpr ⟨rfl, restOfLine_isPrefix tail⟩)
  · rename_i tail heq
    cases heq
    exact begins_cons (List.cons_prefix_cons.mpr ⟨rfl, blockCommentTail_isPrefix tail⟩)
  · rename_i heq
    cases heq
    exact begins_pair _ _ _ _
  · rename_i heq
    cases heq
    exact statementFrom_begins fresh c rest

/-! ## Strings and macro references -/

theorem doubleString_begins (c : Char) (rest : List Char) :
    Begins (doubleString (c :: rest)) (c :: rest) := by
  unfold doubleString
  split
  · rename_i heq; cases heq
  · rename_i heq
    cases heq
    exact begins_pair _ _ _ _
  · rename_i heq
    cases heq
    apply begins_ite (fun _ => lineBreak_begins c rest); intro _
    apply begins_ite (fun _ => begins_singleton _ _ _); intro _
    apply begins_ite (fun _ => begins_singleton _ _ _); intro _
    split
    · split
      · exact begins_cons (textRun_isPrefix _ _)
      · exact begins_pair _ _ _ _
    · exact begins_cons (textRun_isPrefix _ _)

theorem compoundString_begins (c : Char) (rest : List Char) :
    Begins (compoundString (c :: rest)) (c :: rest) := by
  unfold compoundString
  split
  · rename_i heq; cases heq
  · rename_i heq
    cases heq
    exact begins_pair _ _ _ _
  · rename_i heq
    cases heq
    exact begins_pair _ _ _ _
  · rename_i heq
    cases heq
    apply begins_ite (fun _ => lineBreak_begins c rest); intro _
    apply begins_ite (fun _ => begins_singleton _ _ _); intro _
    apply begins_ite (fun _ => begins_singleton _ _ _); intro _
    apply begins_ite (fun _ => begins_singleton _ _ _); intro _
    exact begins_cons (textRun_isPrefix _ _)

theorem localMacro_begins (c : Char) (rest : List Char) :
    Begins (localMacro (c :: rest)) (c :: rest) := by
  unfold localMacro
  apply begins_ite (fun _ => lineBreak_begins c rest); intro _
  apply begins_ite (fun _ => begins_singleton _ _ _); intro _
  apply begins_ite (fun _ => begins_singleton _ _ _); intro _
  apply begins_ite (fun _ => begins_singleton _ _ _); intro _
  apply begins_ite (fun _ => begins_singleton _ _ _); intro _
  apply begins_ite (fun _ => begins_cons (restOfWord_isPrefix rest)); intro _
  apply begins_ite (fun _ => begins_cons (digits_isPrefix rest)); intro _
  exact begins_cons (textRun_isPrefix _ _)

theorem globalMacro_begins (c : Char) (rest : List Char) :
    Begins (globalMacro (c :: rest)) (c :: rest) := by
  unfold globalMacro
  apply begins_ite (fun _ => lineBreak_begins c rest); intro _
  apply begins_ite (fun _ => begins_singleton _ _ _); intro _
  apply begins_ite (fun _ => begins_singleton _ _ _); intro _
  apply begins_ite (fun _ => begins_cons (restOfWord_isPrefix rest)); intro _
  exact begins_singleton _ _ _

/-! ## Mata blocks -/

theorem mataHead_begins (c : Char) (rest : List Char) : Begins (mataHead (c :: rest)) (c :: rest) := by
  unfold mataHead
  apply begins_ite (fun _ => lineBreak_begins c rest); intro _
  apply begins_ite (fun _ => begins_singleton _ _ _); intro _
  apply begins_ite (fun _ => begins_singleton _ _ _); intro _
  exact begins_cons (restOfLine_isPrefix rest)

theorem mataLine_begins (c : Char) (rest : List Char) : Begins (mataLine (c :: rest)) (c :: rest) := by
  unfold mataLine
  simp only
  split
  · rename_i h
    rw [Bool.and_eq_true] at h
    exact ⟨List.isPrefixOf_iff_prefix.mp h.1, by simp⟩
  apply begins_ite (fun _ => lineBreak_begins c rest); intro _
  exact begins_cons (restOfLine_isPrefix rest)

theorem mataBrace_begins (c : Char) (rest : List Char) : Begins (mataBrace (c :: rest)) (c :: rest) := by
  by_cases hc : c = '}'
  · subst hc
    exact begins_singleton _ _ _
  · rw [mataBrace_cons hc]
    exact ⟨braceContent_isPrefix 0 _, by rw [braceContent_cons hc]; exact List.cons_ne_nil _ _⟩

end Lexeme

namespace Mode

/-- Each mode reads a nonempty beginning of what is left. -/
theorem lexeme_begins (mode : Mode) (fresh : Bool) (c : Char) (rest : List Char) :
    (mode.lexeme fresh (c :: rest)).Begins (c :: rest) := by
  cases mode with
  | statement => exact Lexeme.statement_begins fresh c rest
  | doubleString => exact Lexeme.doubleString_begins c rest
  | compoundString => exact Lexeme.compoundString_begins c rest
  | localMacro => exact Lexeme.localMacro_begins c rest
  | globalMacro => exact Lexeme.globalMacro_begins c rest
  | mataHead => exact Lexeme.mataHead_begins c rest
  | mataLine => exact Lexeme.mataLine_begins c rest
  | mataBrace => exact Lexeme.mataBrace_begins c rest

theorem lexeme_nil (mode : Mode) (fresh : Bool) : mode.lexeme fresh [] = Lexeme.endOfText := by
  cases mode <;> rfl

end Mode

end Dofile
