import Dofile.Proofs.Context
import Dofile.Proofs.Tiling

/-!
# Runs of other characters

Characters that begin no token of statement text run together into one. Which characters these are is told
twice, by the tests that the scanner goes through and by the table of the characters that end a run. The two
agree but for the `$`, which ends a run even where it opens no macro reference. So a run hides nothing: read
again from anywhere inside, it ends where it ended before.
-/

namespace Dofile

namespace Lexeme

variable {c : Char} {rest : List Char}

theorem beginsToken_eq_false_iff : beginsToken c = false ↔ isWordStart c = false ∧ c.isDigit = false ∧
    (c ≠ '.' ∧ c ≠ '"' ∧ c ≠ '`' ∧ c ≠ '$') ∧ punctuation? c = none ∧ isComparison c = false ∧
      isArithmetic c = false := by
  simp [beginsToken, and_assoc]

def FallsThrough (c : Char) (rest : List Char) : Prop :=
  isWhiteSpace c = false ∧ (beginsToken c = false ∨ c = '$' ∧ opensMacro rest = false)

theorem FallsThrough.statement_eq (h : FallsThrough c rest) (fresh : Bool) :
    statement fresh (c :: rest) = ⟨.other, c :: otherRun rest⟩ := by
  obtain ⟨hwhite, hnone | ⟨rfl, hopens⟩⟩ := h
  · obtain ⟨hword, hdigit, ⟨hdot, hquote, hbacktick, hdollar⟩, hpunct, hcomp, harith⟩ :=
      beginsToken_eq_false_iff.mp hnone
    have hbreak : isLineBreak c = false := by
      cases hb : isLineBreak c with
      | false => rfl
      | true => rw [isWhiteSpace_of_isLineBreak hb] at hwhite; cases hwhite
    have hne : ∀ d, isArithmetic d = true → c ≠ d := by
      rintro d hd rfl
      rw [hd] at harith
      cases harith
    rw [statement_cons (hne '/' rfl) hbacktick]
    simp [statementFrom, hbreak, hword, hdigit, hdot, hquote, hbacktick, hdollar, hpunct, hcomp, harith, hwhite,
      hne '*' rfl]
  · rw [statement_cons (by decide) (by decide)]
    simp +decide [statementFrom, hopens, punctuation?]

theorem classify_ne_other (word : List Char) : Word.classify word ≠ .other := by
  unfold Word.classify
  split; · decide
  split; · decide
  split <;> decide

theorem dot_kind_ne_other (rest : List Char) : (dot rest).kind ≠ .other := by
  intro h
  unfold dot at h
  split at h; · cases h
  split at h; · cases h
  split at h <;> cases h

theorem punctuation_ne_other : punctuation? c ≠ some .other := by
  unfold punctuation?
  split <;> decide

/-- Each test of the scanner that a character passes takes it off the table of those that end a run. -/
theorem fallsThrough_of_statementFrom {fresh : Bool} {x : Lexeme} (hx : statementFrom fresh c rest = x)
    (hk : x.kind = .other) : FallsThrough c rest := by
  rw [statementFrom] at hx
  rcases ite_eq_iff.mp hx with ⟨-, rfl⟩ | ⟨-, hx⟩; · cases hk
  rcases ite_eq_iff.mp hx with ⟨-, rfl⟩ | ⟨-, hx⟩; · cases hk
  rcases ite_eq_iff.mp hx with ⟨-, rfl⟩ | ⟨hquote, hx⟩; · cases hk
  rcases ite_eq_iff.mp hx with ⟨-, rfl⟩ | ⟨hbacktick, hx⟩; · cases hk
  rcases ite_eq_iff.mp hx with ⟨-, rfl⟩ | ⟨hdollar, hx⟩; · cases hk
  rcases ite_eq_iff.mp hx with ⟨-, rfl⟩ | ⟨hdigit, hx⟩; · cases hk
  rcases ite_eq_iff.mp hx with ⟨-, rfl⟩ | ⟨hdot, hx⟩; · exact absurd hk (dot_kind_ne_other rest)
  rcases ite_eq_iff.mp hx with ⟨-, rfl⟩ | ⟨hword, hx⟩; · exact absurd hk (classify_ne_other _)
  split at hx
  · rename_i hpunct
    subst hx
    obtain rfl : _ = Kind.other := hk
    exact absurd hpunct punctuation_ne_other
  rename_i hpunct
  rcases ite_eq_iff.mp hx with ⟨-, rfl⟩ | ⟨hcomp, hx⟩; · cases hk
  rcases ite_eq_iff.mp hx with ⟨-, rfl⟩ | ⟨harith, hx⟩; · cases hk
  rcases ite_eq_iff.mp hx with ⟨-, rfl⟩ | ⟨hwhite, -⟩; · cases hk
  refine ⟨Bool.eq_false_iff.mpr hwhite, ?_⟩
  have hnone : punctuation? c = none := by
    cases hp : punctuation? c with
    | none => rfl
    | some kind => exact absurd hp (hpunct kind)
  by_cases hc : c = '$'
  · subst hc
    exact .inr ⟨rfl, by simpa using hdollar⟩
  · refine .inl (beginsToken_eq_false_iff.mpr ?_)
    simp only [beq_iff_eq] at hquote hbacktick hdot
    simp only [Bool.not_eq_true] at hword hdigit hcomp harith
    exact ⟨hword, hdigit, ⟨hdot, hquote, hbacktick, hc⟩, hnone, hcomp, harith⟩

theorem statement_kind_eq_other_iff (fresh : Bool) :
    (statement fresh (c :: rest)).kind = .other ↔ FallsThrough c rest := by
  refine ⟨fun hk => ?_, fun h => by rw [h.statement_eq]⟩
  unfold statement at hk
  split at hk
  · cases hk
  · simp only at hk
    split at hk <;> cases hk
  · cases hk
  · cases hk
  · rename_i heq
    cases heq
    exact fallsThrough_of_statementFrom rfl hk

/-- A character on the table begins no run, whatever stands around it. -/
theorem kind_ne_other_of_beginsToken (h : beginsToken c = true) (hdollar : c ≠ '$') (fresh : Bool)
    (rest : List Char) : (statement fresh (c :: rest)).kind ≠ .other := by
  intro hk
  obtain ⟨-, hnone | ⟨hc, -⟩⟩ := (statement_kind_eq_other_iff fresh).mp hk
  · rw [h] at hnone
    cases hnone
  · exact hdollar hc

def EndsRun (text : List Char) : Prop := ∀ c ∈ text.head?, isWhiteSpace c = true ∨ beginsToken c = true

theorem endsRun_behind {text after : List Char} (h : otherRun text ++ after = text) : EndsRun after := by
  intro c hc
  have hsplit := List.takeWhile_append_dropWhile (p := fun c => !isWhiteSpace c && !beginsToken c) (l := text)
  obtain rfl := List.append_cancel_left (h.trans hsplit.symm)
  have hstop := List.head?_dropWhile_not (fun c => !isWhiteSpace c && !beginsToken c) text
  rw [Option.mem_def.mp hc] at hstop
  simpa [or_iff_not_imp_left] using hstop

theorem mem_otherRun (h : c ∈ otherRun rest) : isWhiteSpace c = false ∧ beginsToken c = false := by
  have hrun := List.all_eq_true.mp List.all_takeWhile c h
  simpa only [Bool.and_eq_true, Bool.not_eq_true'] using hrun

/-- A run up to its end is read as one, wherever in it the reading begins. -/
theorem statement_of_run {run after : List Char} (hne : run ≠ [])
    (hrun : ∀ c ∈ run, isWhiteSpace c = false ∧ beginsToken c = false) (hends : EndsRun after) (fresh : Bool) :
    statement fresh (run ++ after) = ⟨.other, run⟩ := by
  obtain ⟨c, run, rfl⟩ := List.exists_cons_of_ne_nil hne
  have hfirst := hrun c (by simp)
  have hafter : otherRun after = [] := by
    cases after with
    | nil => rfl
    | cons d after =>
      refine List.takeWhile_cons_of_neg ?_
      rcases hends d rfl with h | h <;> simp [h]
  have happend : otherRun (run ++ after) = run ++ otherRun after :=
    List.takeWhile_append_of_pos fun d hd => by simp [hrun d (List.mem_cons_of_mem c hd)]
  have hfalls : FallsThrough c (run ++ after) := ⟨hfirst.1, .inl hfirst.2⟩
  rw [List.cons_append, hfalls.statement_eq, happend, hafter, List.append_nil]

end Lexeme

/-- A cut within a stretch of a text leaves an end of the stretch before what follows it. -/
theorem cut_within {q : Nat} {text before rest pre run after : List Char}
    (hcut : cutBytes q text = some (before, rest)) (htext : pre ++ (run ++ after) = text)
    (hstart : byteSize pre < q) (hstop : q < byteSize pre + byteSize run) :
    ∃ passed left, run = passed ++ left ∧ passed ≠ [] ∧ left ≠ [] ∧ rest = left ++ after ∧
      q = byteSize pre + byteSize passed := by
  obtain ⟨hbefore, rfl⟩ := cutBytes_eq_some hcut
  obtain ⟨passed, rfl, hrest⟩ := exists_between (htext.trans hbefore.symm) (Nat.le_of_lt hstart)
  rw [byteSize_append] at hstart hstop
  obtain ⟨left, rfl, hleft⟩ := exists_between hrest.symm (by omega)
  refine ⟨passed, left, rfl, ?_, ?_, hleft, byteSize_append ..⟩
  · rintro rfl
    simp at hstart
  · rintro rfl
    simp at hstop

namespace Lexer

variable {text : List Char} {l : Lexer}

theorem text_of_other (hmode : l.mode = .statement) (hk : l.kind = .other) :
    ∃ c rest, l.body = c :: rest ∧ l.ahead.text = c :: Lexeme.otherRun rest ∧ Lexeme.EndsRun l.after := by
  have hlexeme : l.mode.lexeme l.fresh l.body = Lexeme.statement l.fresh l.body := by rw [hmode]; rfl
  have hkind := l.kind_eq
  rw [hk, hlexeme] at hkind
  cases hbody : l.body with
  | nil => rw [hbody] at hkind; cases hkind
  | cons c rest =>
    rw [hbody] at hkind
    have hfalls := (Lexeme.statement_kind_eq_other_iff l.fresh).mp hkind.symm
    have htext : l.ahead.text = c :: Lexeme.otherRun rest := by
      rw [l.ahead_eq, hlexeme, hbody, hfalls.statement_eq]
    have hsplit := l.text_append_after
    rw [htext, hbody] at hsplit
    exact ⟨c, rest, rfl, htext, Lexeme.endsRun_behind (List.cons.inj hsplit).2⟩

theorem Stands.other_within (h : l.Stands text) (hmode : l.mode = .statement) (hk : l.kind = .other) {q : Nat}
    {m : Lexer} (hstart : l.ahead.start < q) (hstop : q < l.ahead.stop) (hat : at? text q .statement = some m) :
    m.kind = .other ∧ m.ahead.span = ⟨q, l.ahead.stop⟩ := by
  obtain ⟨⟨before, rest⟩, hcut, rfl⟩ := Option.map_eq_some_iff.mp hat
  obtain ⟨pre, hpre, -⟩ := h.cut_body
  obtain ⟨htext, hsize⟩ := cutBytes_eq_some hpre
  obtain ⟨c, tail, hbody, hrun, hends⟩ := text_of_other hmode hk
  rw [← l.text_append_after] at htext
  have hlen : l.ahead.stop = byteSize pre + byteSize l.ahead.text := by rw [hsize]; rfl
  obtain ⟨passed, left, hsplit, hpassed, hleft, rfl, hq⟩ :=
    cut_within hcut htext (hsize ▸ hstart) (hlen ▸ hstop)
  -- the token's first character may be a dollar sign, the others are none
  have hmem : ∀ d ∈ left, isWhiteSpace d = false ∧ Lexeme.beginsToken d = false := by
    obtain ⟨e, passed, rfl⟩ := List.exists_cons_of_ne_nil hpassed
    rw [hrun, List.cons_append] at hsplit
    have htail := (List.cons.inj hsplit).2
    exact fun d hd => Lexeme.mem_otherRun (htail ▸ List.mem_append_right passed hd)
  have hlead : (left ++ l.after).takeWhile isBlank = [] := by
    obtain ⟨d, left, rfl⟩ := List.exists_cons_of_ne_nil hleft
    refine List.takeWhile_cons_of_neg fun hblank => ?_
    exact absurd (isWhiteSpace_of_isBlank hblank) (Bool.eq_false_iff.mp (hmem d (by simp)).1)
  have hread : Token.read .statement q (isLineStart text q) (left ++ l.after) = ⟨q, [], .other, left⟩ := by
    simp [Token.read, Mode.skipsBlanks, hlead, Mode.lexeme, Lexeme.statement_of_run hleft hmem hends]
  have hspan : (Token.mk q [] .other left).span = ⟨q, l.ahead.stop⟩ := by
    rw [hlen, hsplit, byteSize_append, ← Nat.add_assoc, ← hq]
    rfl
  exact ⟨congrArg Token.kind hread, (congrArg Token.span hread).trans hspan⟩

theorem Stands.behind_other (h : l.Stands text) (hmode : l.mode = .statement) (hk : l.kind = .other) :
    ∃ before after, cutBytes l.ahead.stop text = some (before, after) ∧
      (after = [] ∨ ∃ c rest, after = c :: rest ∧ (isWhiteSpace c = true ∨ c = '$' ∨
        ∀ fresh more, (Lexeme.statement fresh (c :: more)).kind ≠ .other)) := by
  obtain ⟨-, -, -, -, hends⟩ := text_of_other hmode hk
  obtain ⟨before, hcut, -⟩ := (h.next .statement).cut
  refine ⟨before, l.after, hcut, ?_⟩
  cases hafter : l.after with
  | nil => exact .inl rfl
  | cons c rest =>
    refine .inr ⟨c, rest, rfl, (hends c (by rw [hafter]; rfl)).imp_right fun hbegins => ?_⟩
    exact or_iff_not_imp_left.mpr (Lexeme.kind_ne_other_of_beginsToken hbegins)

/-- Whichever token of the kind `other` statement text yields, reading again from any character inside yields a
token of that kind with the same end. There the text ends, or goes on with white space, a `$` or a character
that begins a token of another kind whatever stands around it. -/
theorem other_hides_nothing (text : List Char) (steps : List Step) :
    let t := ((run steps (ofText text)).2.relex .statement).ahead
    t.kind = .other →
      (∀ q m, t.start < q → q < t.stop → at? text q .statement = some m →
        m.kind = .other ∧ m.ahead.span = ⟨q, t.stop⟩) ∧
      ∃ before after, cutBytes t.stop text = some (before, after) ∧
        (after = [] ∨ ∃ c rest, after = c :: rest ∧ (isWhiteSpace c = true ∨ c = '$' ∨
          ∀ fresh more, (Lexeme.statement fresh (c :: more)).kind ≠ .other)) := by
  intro t hk
  have hstands : ((run steps (ofText text)).2.relex .statement).Stands text :=
    (run_stands steps (stands_ofText text)).1.relex .statement
  exact ⟨fun q m hstart hstop hat => hstands.other_within rfl hk hstart hstop hat, hstands.behind_other rfl hk⟩

/-- Behind `a` stand `$`, `%` and `é`, which run together. -/
theorem other_hides_nothing_dollar :
    let text := "a$%é+".toList
    let t := ((run [.next .statement] (ofText text)).2.relex .statement).ahead
    (t.kind = .other ∧ t.span = ⟨1, 5⟩) ∧
      ∀ q m, 1 < q → q < 5 → at? text q .statement = some m → m.kind = .other ∧ m.ahead.span = ⟨q, 5⟩ :=
  ⟨by decide, (other_hides_nothing "a$%é+".toList [.next .statement] (by decide)).1⟩

end Lexer

end Dofile
