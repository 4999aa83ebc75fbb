import Dofile.Proofs.Lexer
import Dofile.Proofs.SameLine

/-!
# Texts that end with a line feed

No mode looks past the end of the line in which it reads, so what follows a text that
ends with a line feed changes none of its tokens. The exceptions go on to the end of
the text, a comment or a block in braces without its end.
-/

namespace Dofile

def LineEnded (text : List Char) : Prop := text.getLast? = some '\n'

instance (text : List Char) : Decidable (LineEnded text) := inferInstanceAs (Decidable (_ = _))

theorem LineEnded.ne_nil {text : List Char} (h : LineEnded text) : text ≠ [] := by
  intro hn
  rw [LineEnded, hn] at h
  cases h

theorem lineEnded_of_append {a b : List Char} (h : LineEnded (a ++ b)) (hb : b ≠ []) : LineEnded b := by
  unfold LineEnded at h ⊢
  rw [List.getLast?_append, List.getLast?_eq_some_getLast hb, Option.some_or] at h
  rwa [List.getLast?_eq_some_getLast hb]

theorem LineEnded.tail {c : Char} {rest : List Char} (h : LineEnded (c :: rest)) (hc : c ≠ '\n') : LineEnded rest := by
  cases rest with
  | nil => exact absurd (Option.some.inj h) hc
  | cons d rest => exact lineEnded_of_append (a := [c]) h (List.cons_ne_nil _ _)

theorem LineEnded.sameLine {text : List Char} (h : LineEnded text) (more : List Char) : SameLine text (text ++ more) := by
  induction text with
  | nil => exact absurd rfl h.ne_nil
  | cons c rest ih =>
    cases hb : isLineBreak c with
    | true => exact .broken hb hb rest (rest ++ more)
    | false => exact .more hb (ih (h.tail (ne_of_isLineBreak rfl hb).symm))

/-- Behind a beginning that contains no line feed a text goes on. -/
theorem drop_lineEnded {text a : List Char} (h : LineEnded text) (ha : a <+: text) (hn : '\n' ∉ a)
    (more : List Char) : (text ++ more).drop a.length = text.drop a.length ++ more ∧ LineEnded (text.drop a.length) := by
  obtain ⟨b, rfl⟩ := ha
  rw [List.append_assoc, List.drop_left, List.drop_left]
  refine ⟨rfl, lineEnded_of_append h ?_⟩
  intro hb
  rw [hb, List.append_nil] at h
  exact hn (List.mem_of_getLast? h)

namespace Lexeme

section
variable {text : List Char} (h : LineEnded text) (more : List Char)
include h

/-- The rest of a comment is found in the text, or it goes on to where the text ends. -/
theorem blockCommentTail_lineEnded :
    blockCommentTail (text ++ more) = blockCommentTail text ∨ blockCommentTail text = text := by
  induction text with
  | nil => exact absurd rfl h.ne_nil
  | cons c rest ih =>
    cases rest with
    | nil =>
      have hc : c = '\n' := Option.some.inj h
      exact .inr (by subst hc; rfl)
    | cons d rest =>
      have hr : LineEnded (d :: rest) := h
      by_cases hend : ['*', '/'] <+: c :: d :: rest
      · obtain ⟨u, heq⟩ := hend
        rw [← heq]
        exact .inl rfl
      · have hend' : ¬ ['*', '/'] <+: c :: d :: (rest ++ more) := by simpa using hend
        rw [List.cons_append, List.cons_append, blockCommentTail_cons hend', blockCommentTail_cons hend]
        exact (ih hr).imp (congrArg (c :: ·)) (congrArg (c :: ·))

theorem braceContent_lineEnded (depth : Nat) :
    braceContent depth (text ++ more) = braceContent depth text ∨ braceContent depth text = text := by
  induction text generalizing depth with
  | nil => exact absurd rfl h.ne_nil
  | cons c rest ih =>
    by_cases hc : c = '}'
    · subst hc
      have hr := h.tail (by decide)
      cases depth with
      | zero => exact .inl rfl
      | succ depth => exact (ih hr depth).imp (congrArg ('}' :: ·)) (congrArg ('}' :: ·))
    · rw [List.cons_append, braceContent_cons hc, braceContent_cons hc]
      cases rest with
      | nil => exact .inr (by simp [braceContent])
      | cons d rest =>
        have hr : LineEnded (d :: rest) := h
        exact (ih hr _).imp (congrArg (c :: ·)) (congrArg (c :: ·))

end

def TakesAll (x : Lexeme) (text : List Char) : Prop := x.text = text ∧ x.kind ≠ .newline

def Agrees (text : List Char) (x y : Lexeme) : Prop := y = x ∨ y.kind = x.kind ∧ x.TakesAll text

theorem comment_agrees {tail : List Char} (h : LineEnded tail) (fresh : Bool) (more : List Char) :
    Agrees ('/' :: '*' :: tail) (statement fresh ('/' :: '*' :: tail)) (statement fresh ('/' :: '*' :: (tail ++ more))) := by
  rcases blockCommentTail_lineEnded h more with htail | htail
  · exact .inl (by simp only [statement, htail])
  · exact .inr ⟨rfl, by simp only [statement, htail], by simp [statement]⟩

theorem mataBrace_agrees {text : List Char} (h : LineEnded text) (more : List Char) :
    Agrees text (mataBrace text) (mataBrace (text ++ more)) := by
  obtain ⟨c, rest, rfl⟩ := List.exists_cons_of_ne_nil h.ne_nil
  by_cases hc : c = '}'
  · subst hc
    exact .inl rfl
  · rw [List.cons_append, mataBrace_cons hc, mataBrace_cons hc]
    rcases braceContent_lineEnded h more 0 with heq | heq
    · exact .inl (by rw [← List.cons_append, heq])
    · exact .inr ⟨rfl, heq, by simp⟩

theorem lineBreak_lineEnded {c : Char} {rest : List Char} (h : LineEnded (c :: rest)) (more : List Char) :
    lineBreak c (rest ++ more) = lineBreak c rest := by
  by_cases hc : c = '\n'
  · subst hc
    rfl
  · obtain ⟨d, rest, rfl⟩ := List.exists_cons_of_ne_nil (h.tail hc).ne_nil
    rfl

end Lexeme

namespace Mode

/-- What is read at the beginning of a text that ends with a line feed is read there
whatever follows, but for tokens that go on to the end of the text. -/
theorem lexeme_agrees (mode : Mode) (fresh : Bool) {text : List Char} (h : LineEnded text) (more : List Char) :
    Lexeme.Agrees text (mode.lexeme fresh text) (mode.lexeme fresh (text ++ more)) := by
  by_cases hm : mode = .mataBrace
  · rw [hm]
    exact Lexeme.mataBrace_agrees h more
  obtain ⟨c, rest, rfl⟩ := List.exists_cons_of_ne_nil h.ne_nil
  rw [List.cons_append]
  cases hb : isLineBreak c with
  | true =>
    rw [lexeme_of_lineBreak hm fresh hb, lexeme_of_lineBreak hm fresh hb]
    exact .inl (Lexeme.lineBreak_lineEnded h more)
  | false =>
    have hr : LineEnded rest := h.tail (ne_of_isLineBreak rfl hb).symm
    by_cases hk : (mode.lexeme fresh (c :: rest)).kind = .blockComment
    · obtain ⟨rfl, tail, heq⟩ := lexeme_blockComment_cases hk
      cases heq
      exact Lexeme.comment_agrees (hr.tail (by decide)) fresh more
    · exact .inl (lexeme_sameLine hm hb (hr.sameLine more) hk)

end Mode

end Dofile
