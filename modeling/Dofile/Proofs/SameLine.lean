import Dofile.Grammar.Statement
import Dofile.Proofs.LexemeKind

/-!
# Texts with the same line

Within a line a scanner reads no more than the line. So two texts that agree up to a line
break, or up to the end of both, begin with the same tokens. Only block comments and the
content in braces go on behind the break.
-/

namespace Dofile

/-- Whether two texts agree up to their first line breaks, whatever follows these. -/
inductive SameLine : List Char → List Char → Prop where
  | ended : SameLine [] []
  | broken {b b' : Char} (h : isLineBreak b = true) (h' : isLineBreak b' = true) (rest rest' : List Char) :
    SameLine (b :: rest) (b' :: rest')
  | more {c : Char} {a b : List Char} (hc : isLineBreak c = false) (h : SameLine a b) : SameLine (c :: a) (c :: b)

theorem isLineBreak_cases {c : Char} (h : isLineBreak c = true) : c = '\n' ∨ c = '\r' := by
  simpa [isLineBreak] using h

theorem eq_false_of_isLineBreak {p : Char → Bool} (hn : p '\n' = false) (hr : p '\r' = false) {c : Char}
    (h : isLineBreak c = true) : p c = false := by
  rcases isLineBreak_cases h with rfl | rfl
  · exact hn
  · exact hr

theorem ne_of_isLineBreak {c d : Char} (h : isLineBreak c = true) (hd : isLineBreak d = false) : c ≠ d := by
  intro he
  rw [he, hd] at h
  cases h

namespace SameLine

variable {a b : List Char} {p : Char → Bool}

theorem takeWhile (h : SameLine a b) (hn : p '\n' = false) (hr : p '\r' = false) :
    b.takeWhile p = a.takeWhile p := by
  induction h with
  | ended => rfl
  | broken h h' => simp [eq_false_of_isLineBreak hn hr h, eq_false_of_isLineBreak hn hr h']
  | more _ _ ih => simp only [List.takeWhile_cons, ih]

theorem dropWhile (h : SameLine a b) (hn : p '\n' = false) (hr : p '\r' = false) :
    SameLine (a.dropWhile p) (b.dropWhile p) := by
  induction h with
  | ended => exact .ended
  | broken h h' rest rest' =>
    simpa [eq_false_of_isLineBreak hn hr h, eq_false_of_isLineBreak hn hr h'] using .broken h h' rest rest'
  | @more c a b hc h ih =>
    by_cases hp : p c = true
    · simpa [hp] using ih
    · simpa [hp] using h.more hc

/-- Behind what both texts begin with on their line they go on alike. -/
theorem drop (h : SameLine a b) {x : List Char} (hx : x <+: a) (hone : ∀ c ∈ x, isLineBreak c = false) :
    SameLine (a.drop x.length) (b.drop x.length) := by
  induction x generalizing a b with
  | nil => exact h
  | cons c x ih =>
    obtain ⟨rest, rfl⟩ := hx
    cases h with
    | broken hc => exact absurd (hone c (by simp)) (by simp [hc])
    | more _ h => exact ih h (List.prefix_append x rest) fun d hd => hone d (List.mem_cons_of_mem c hd)

theorem drop_takeWhile (h : SameLine a b) (hn : p '\n' = false) (hr : p '\r' = false) :
    SameLine (a.drop (a.takeWhile p).length) (b.drop (a.takeWhile p).length) := by
  refine h.drop (List.takeWhile_prefix p) fun c hc => ?_
  have hpc := List.all_eq_true.mp List.all_takeWhile c hc
  cases hb : isLineBreak c with
  | false => rfl
  | true => rw [eq_false_of_isLineBreak hn hr hb] at hpc; cases hpc

theorem any_head? (h : SameLine a b) (hn : p '\n' = false) (hr : p '\r' = false) :
    b.head?.any p = a.head?.any p := by
  cases h with
  | ended => rfl
  | broken h h' => simp [eq_false_of_isLineBreak hn hr h, eq_false_of_isLineBreak hn hr h']
  | more => rfl

theorem head?_beq (h : SameLine a b) {c : Char} (hc : isLineBreak c = false) :
    (b.head? == some c) = (a.head? == some c) := by
  cases h with
  | ended => rfl
  | broken h h' =>
    simp [beq_eq_false_iff_ne.mpr (ne_of_isLineBreak h hc), beq_eq_false_iff_ne.mpr (ne_of_isLineBreak h' hc)]
  | more => rfl

/-- A function of a text that looks no further than a line break is told by the line. -/
theorem congr {α : Type} (f : List Char → α) (h : SameLine a b) (hn : ∀ rest, f ('\n' :: rest) = f ['\n'])
    (hr : ∀ rest, f ('\r' :: rest) = f ['\n'])
    (hmore : ∀ {c a b}, isLineBreak c = false → SameLine a b → f (c :: b) = f (c :: a)) : f b = f a := by
  have hbreak {c : Char} (hc : isLineBreak c = true) (rest : List Char) : f (c :: rest) = f ['\n'] := by
    rcases isLineBreak_cases hc with rfl | rfl
    · exact hn rest
    · exact hr rest
  cases h with
  | ended => rfl
  | broken h h' => rw [hbreak h, hbreak h']
  | more hc h => exact hmore hc h

end SameLine

namespace Lexeme

section
variable {a b : List Char} (h : SameLine a b)
include h

/-! ## Parts of tokens -/

theorem restOfLine_sameLine : restOfLine b = restOfLine a := h.takeWhile rfl rfl

theorem restOfWord_sameLine : restOfWord b = restOfWord a := h.takeWhile rfl rfl

theorem otherRun_sameLine : otherRun b = otherRun a := h.takeWhile rfl rfl

theorem digits_sameLine : digits b = digits a := h.takeWhile rfl rfl

theorem drop_digits_sameLine : SameLine (a.drop (digits a).length) (b.drop (digits a).length) :=
  h.drop_takeWhile rfl rfl

theorem opensMacro_sameLine : opensMacro b = opensMacro a := h.any_head? rfl rfl

theorem textRun_sameLine (stop : Char → Bool) : textRun stop b = textRun stop a := by
  induction h with
  | ended => rfl
  | broken h h' => simp [textRun, h, h']
  | more _ h ih => simp only [textRun, opensMacro_sameLine h, ih]

theorem sign_sameLine : sign b = sign a :=
  h.congr sign (fun _ => rfl) (fun _ => rfl) fun _ _ => by unfold sign; split <;> simp_all

theorem exponent_sameLine : exponent b = exponent a := by
  refine h.congr exponent (fun _ => rfl) (fun _ => rfl) fun {_ a _} _ h => ?_
  have hone : ∀ c ∈ sign a, isLineBreak c = false := by unfold sign; split <;> simp [isLineBreak]
  simp only [exponent, sign_sameLine h, digits_sameLine (h.drop (sign_isPrefix a) hone)]

theorem number_sameLine : number b = number a := by
  have hbehind := drop_digits_sameLine h
  unfold number
  dsimp only
  rw [digits_sameLine h]
  generalize a.drop (digits a).length = x at hbehind ⊢
  generalize b.drop (digits a).length = y at hbehind ⊢
  cases hbehind with
  | ended => rfl
  | broken h h' => rcases isLineBreak_cases h with rfl | rfl <;> rcases isLineBreak_cases h' with rfl | rfl <;> rfl
  | @more c x y hc h =>
    by_cases hp : c = '.'
    · subst hp
      simp only [digits_sameLine h, exponent_sameLine (drop_digits_sameLine h)]
    · simp [hp, exponent_sameLine (h.more hc)]

theorem dot_sameLine : dot b = dot a := by
  refine h.congr dot (fun _ => rfl) (fun _ => rfl) fun hc h => ?_
  have hdigits := digits_sameLine (h.more hc)
  have hexponent := exponent_sameLine (drop_digits_sameLine (h.more hc))
  simp only [dot, hdigits, hexponent, h.any_head? (p := isWordPart) rfl rfl]

theorem closesLine_sameLine : closesLine b = closesLine a := by
  have hdrop := h.dropWhile (p := isBlank) rfl rfl
  unfold closesLine
  generalize a.dropWhile isBlank = x at hdrop
  generalize b.dropWhile isBlank = y at hdrop
  cases hdrop with
  | ended => rfl
  | broken h h' => rcases isLineBreak_cases h with rfl | rfl <;> rcases isLineBreak_cases h' with rfl | rfl <;> rfl
  | @more c x y hc h =>
    by_cases hs : c = '/'
    · subst hs
      cases h with
      | ended => rfl
      | broken h h' =>
        rcases isLineBreak_cases h with rfl | rfl <;> rcases isLineBreak_cases h' with rfl | rfl <;> rfl
      | @more d => by_cases hd : d = '/' <;> by_cases hd' : d = '*' <;> simp [hd, hd']
    · simp [hs]

/-! ## Tokens -/

variable {c : Char} (hc : isLineBreak c = false)
include hc

theorem statementFrom_sameLine (fresh : Bool) : statementFrom fresh c b = statementFrom fresh c a := by
  simp only [statementFrom, hc, Bool.false_eq_true, if_false, opensMacro_sameLine h, restOfLine_sameLine h,
    restOfWord_sameLine h, otherRun_sameLine h, number_sameLine (h.more hc), dot_sameLine h,
    h.head?_beq (c := '=') rfl]

/-- Only a block comment goes on behind the line. -/
theorem statement_sameLine {fresh : Bool} (hk : (statement fresh (c :: a)).kind ≠ .blockComment) :
    statement fresh (c :: b) = statement fresh (c :: a) := by
  have hfrom := statementFrom_sameLine h hc fresh
  cases h with
  | ended => rfl
  | broken h h' =>
    rcases isLineBreak_cases h with rfl | rfl <;> rcases isLineBreak_cases h' with rfl | rfl <;> simp [statement, hfrom]
  | @more d a b hd h =>
    by_cases hline : c = '/' ∧ d = '/'
    · obtain ⟨rfl, rfl⟩ := hline
      simp only [statement, h.head?_beq (c := '/') rfl, restOfLine_sameLine h]
    by_cases hblock : c = '/' ∧ d = '*'
    · obtain ⟨rfl, rfl⟩ := hblock
      exact absurd rfl hk
    by_cases hopen : c = '`' ∧ d = '"'
    · obtain ⟨rfl, rfl⟩ := hopen
      rfl
    · rw [statement.eq_5 fresh c (d :: b), statement.eq_5 fresh c (d :: a), hfrom] <;> simp_all

theorem doubleString_sameLine : doubleString (c :: b) = doubleString (c :: a) := by
  have hrun := textRun_sameLine h fun c => c == '"' || c == '\\'
  have hopens := opensMacro_sameLine h
  by_cases hq : c = '"'
  · subst hq
    refine h.congr (fun text => doubleString ('"' :: text)) (fun _ => rfl) (fun _ => rfl) fun {d _ _} _ _ => ?_
    by_cases hd : d = '"' <;> simp [doubleString, hd, hc]
  by_cases hs : c = '\\'
  · subst hs
    cases h with
    | ended => rfl
    | broken h h' => simp [doubleString, hc, h, h', hrun]
    | more => simp [doubleString, hc, hrun]
  · simp [doubleString, hq, hs, hc, hrun, hopens]

theorem compoundString_sameLine : compoundString (c :: b) = compoundString (c :: a) := by
  have hrun := textRun_sameLine h fun c => c == '`' || c == '"'
  have hopens := opensMacro_sameLine h
  by_cases hb : c = '`'
  · subst hb
    refine h.congr (fun text => compoundString ('`' :: text)) (fun _ => rfl) (fun _ => rfl) fun {d _ _} _ _ => ?_
    by_cases hd : d = '"' <;> simp [compoundString, hd, hc]
  by_cases hq : c = '"'
  · subst hq
    refine h.congr (fun text => compoundString ('"' :: text)) (fun _ => rfl) (fun _ => rfl) fun {d _ _} _ _ => ?_
    by_cases hd : d = '\'' <;> simp [compoundString, hd, hc]
  · simp [compoundString, hb, hq, hc, hrun, hopens]

theorem localMacro_sameLine : localMacro (c :: b) = localMacro (c :: a) := by
  simp only [localMacro, hc, Bool.false_eq_true, if_false, textRun_sameLine h, opensMacro_sameLine h,
    restOfWord_sameLine h, digits_sameLine h]

theorem globalMacro_sameLine : globalMacro (c :: b) = globalMacro (c :: a) := by
  simp only [globalMacro, hc, Bool.false_eq_true, if_false, restOfWord_sameLine h]

theorem mataHead_sameLine : mataHead (c :: b) = mataHead (c :: a) := by
  simp only [mataHead, hc, Bool.false_eq_true, if_false, restOfLine_sameLine h]

theorem mataLine_sameLine : mataLine (c :: b) = mataLine (c :: a) := by
  -- a text that begins with `end` has no line break before the place where that ends
  have hend : (['e', 'n', 'd'].isPrefixOf (c :: b) && closesLine ((c :: b).drop 3)) =
      (['e', 'n', 'd'].isPrefixOf (c :: a) && closesLine ((c :: a).drop 3)) := by
    by_cases he : c = 'e'
    · subst he
      refine h.congr (f := fun text => ['e', 'n', 'd'].isPrefixOf ('e' :: text) && closesLine (('e' :: text).drop 3))
        (fun _ => rfl) (fun _ => rfl) fun {d a b} _ h => ?_
      by_cases hn : d = 'n'
      · subst hn
        refine h.congr (f := fun text => ['e', 'n', 'd'].isPrefixOf ('e' :: 'n' :: text) && closesLine (text.drop 1))
          (fun _ => rfl) (fun _ => rfl) fun {d a b} _ h => ?_
        simp [List.isPrefixOf, closesLine_sameLine h]
      · simp [List.isPrefixOf, beq_eq_false_iff_ne.mpr (Ne.symm hn)]
    · simp [List.isPrefixOf, beq_eq_false_iff_ne.mpr (Ne.symm he)]
  simp only [mataLine, hend, hc, Bool.false_eq_true, if_false, restOfLine_sameLine h]

end

end Lexeme

namespace Mode

open Lexeme in
/-- Texts with the same line begin with the same token, line breaks and what goes on behind them apart. -/
theorem lexeme_sameLine {mode : Mode} (hm : mode ≠ .mataBrace) {fresh : Bool} {c : Char} {a b : List Char}
    (hc : isLineBreak c = false) (h : SameLine a b) (hk : (mode.lexeme fresh (c :: a)).kind ≠ .blockComment) :
    mode.lexeme fresh (c :: b) = mode.lexeme fresh (c :: a) := by
  cases mode with
  | statement => exact statement_sameLine h hc hk
  | doubleString => exact doubleString_sameLine h hc
  | compoundString => exact compoundString_sameLine h hc
  | localMacro => exact localMacro_sameLine h hc
  | globalMacro => exact globalMacro_sameLine h hc
  | mataHead => exact mataHead_sameLine h hc
  | mataLine => exact mataLine_sameLine h hc
  | mataBrace => exact absurd rfl hm

end Mode

/-! ## Words ahead -/

theorem Grammar.prefixApplies_sameLine {a b : List Char} (h : SameLine a b) : prefixApplies b = prefixApplies a := by
  have hdrop := h.dropWhile (p := isBlank) rfl rfl
  unfold prefixApplies
  generalize a.dropWhile isBlank = x at hdrop
  generalize b.dropWhile isBlank = y at hdrop
  cases hdrop with
  | ended => rfl
  | broken h h' => rcases isLineBreak_cases h with rfl | rfl <;> rcases isLineBreak_cases h' with rfl | rfl <;> rfl
  | @more c _ _ hc h =>
    have hword := (h.dropWhile (p := isBlank) rfl rfl).any_head? (p := isWordStart) rfl rfl
    by_cases hp : c = ':' <;> simp [hp, hword]

theorem Grammar.atProgramSubcommand_sameLine {a b : List Char} (h : SameLine a b) :
    atProgramSubcommand b = atProgramSubcommand a := by
  have hdrop := h.dropWhile (p := isBlank) rfl rfl
  rw [atProgramSubcommand, hdrop.takeWhile rfl rfl, atProgramSubcommand]

end Dofile
