import Dofile.Grammar.Argument
import Dofile.Proofs.Delimited

/-!
# Readings of arguments

What stands on a line behind the keyword of a statement, and how the line ends.
-/

namespace Dofile.Reading

def takeInError (problem : Problem) : Reading :=
  node .error ((report problem).seq (take .statement)) Kind.isNode_error

def AtOpenComment (l : Lexer) : Prop :=
  l.kind = .blockComment ∧ Lexeme.isTerminatedBlockComment l.ahead.text = false

def argument : Reading :=
  either (·.kind = .doubleQuote) (doubleString .statement) <|
  either (·.kind = .compoundOpen) (construct .compoundString 1 .statement) <|
  either (·.kind = .backtick) (construct .localMacro 1 .statement) <|
  either (·.kind = .dollar) (globalMacro .statement) <|
  either AtOpenComment (takeInError .unterminatedBlockComment) <|
  either (·.kind = .unknown) (takeInError .unexpectedCharacter) (take .statement)

def arguments : Reading := many Lexer.EndsLine argument

def AtTrailingComment (l : Lexer) : Prop :=
  l.kind = .lineComment ∨ l.kind = .continuationComment ∨ l.kind = .blockComment

def trailingComments : Reading := many (fun l => ¬ AtTrailingComment l) argument

/-- What is left of a line that should have ended. -/
def remnant : Reading :=
  either Lexer.EndsLine skip (node .error ((report .expectedEndOfLine).seq arguments) Kind.isNode_error)

def endOfLine : Reading := trailingComments.seq (remnant.seq (eat .newline .statement))

def nameWord : Reading := node .name (word .ident .statement)

def name (problem : Problem) : Reading := either Lexer.IsWord nameWord (report problem)

/-- A comment is taken as it is, or alone in a problem node if it is a block comment without its end. -/
theorem argument_of_comment {l m : Lexer} {items : List Item} (hl : l.kind.isComment = true)
    (h : argument.leads l items m) :
    items = [l.item] ∨ l.kind = .blockComment ∧
      items = [.node .error [.found ⟨.unterminatedBlockComment, l.ahead.span⟩, l.item]] := by
  have hne : ∀ kind : Kind, kind.isComment = false → l.kind ≠ kind := by
    intro kind hkind e
    rw [e, hkind] at hl
    cases hl
  have h := (h.resolve_left fun hs => hne _ rfl hs.1).2
  have h := (h.resolve_left fun hs => hne _ rfl hs.1).2
  have h := (h.resolve_left fun hs => hne _ rfl hs.1).2
  have h := (h.resolve_left fun hs => hne _ rfl hs.1).2
  rcases h with ⟨hopen, h⟩ | ⟨-, ⟨hunknown, -⟩ | ⟨-, -, rfl, -⟩⟩
  · obtain ⟨_, ⟨_, _, _, ⟨rfl, rfl⟩, ⟨-, rfl, -⟩, rfl⟩, rfl⟩ := h
    exact .inr ⟨hopen.1, rfl⟩
  · exact absurd hunknown (hne _ rfl)
  · exact .inl rfl

/-! ## Progress and totality -/

theorem moves_takeInError (problem : Problem) : (takeInError problem).Moves :=
  ((moves_take _).after _).node _

theorem moves_argument : argument.Moves :=
  (moves_doubleString _).either ((moves_construct _ _ _).either ((moves_construct _ _ _).either
    ((moves_globalMacro _).either ((moves_takeInError _).either
      ((moves_takeInError _).either (moves_take _) _) _) _) _) _) _

theorem total_takeInError (problem : Problem) : (takeInError problem).TotalOn fun l => l.kind ≠ .eof :=
  ((total_take _).report_seq problem).node _

theorem total_argument : argument.TotalOn fun l => l.kind ≠ .eof :=
  TotalOn.either ((total_doubleString _).mono fun _ h => h.2) <|
    TotalOn.either ((total_construct _ _ _).mono fun _ h => h.2) <|
    TotalOn.either ((total_construct _ _ _).mono fun _ h => h.2) <|
    TotalOn.either ((total_globalMacro _).mono fun _ h => h.2) <|
    TotalOn.either ((total_takeInError _).mono fun _ h => h.1.1.1.1.1) <|
    TotalOn.either ((total_takeInError _).mono fun _ h => h.1.1.1.1.1.1)
      ((total_take _).mono fun _ h => h.1.1.1.1.1.1)

theorem total_arguments : arguments.Total :=
  total_many (total_argument.mono fun _ h => Lexer.ne_eof_of_not_endsLine h) moves_argument

theorem AtTrailingComment.ne_eof {l : Lexer} (h : AtTrailingComment l) : l.kind ≠ .eof := by
  rcases h with h | h | h <;> rw [h] <;> decide

theorem total_trailingComments : trailingComments.Total :=
  total_many (total_argument.mono fun _ h => (Classical.not_not.mp h).ne_eof) moves_argument

theorem total_remnant : remnant.Total :=
  Total.either (total_skip.on _) ((((total_report _).seq total_arguments).node _).on _)

theorem total_endOfLine : endOfLine.Total :=
  total_trailingComments.seq (total_remnant.seq (total_eat (by decide) _))

theorem moves_nameWord : nameWord.Moves := (moves_word _ _ _).node _

theorem total_nameWord : nameWord.TotalOn Lexer.IsWord := (total_word _ _ _).node _

theorem total_name (problem : Problem) : (name problem).Total :=
  Total.either total_nameWord ((total_report _).on _)

/-! ## Rules -/

theorem atLineEnd_iff (s : Run) : (!s.atLineEnd) = true ↔ ¬ s.lexer.EndsLine := by
  rw [← Run.atLineEnd_iff]
  simp

theorem atWordOf_iff (s : Run) (words : List String) : s.atWordOf words = true ↔ s.lexer.IsWordOf words := by
  rw [Run.atWordOf, Bool.and_eq_true]
  rfl

theorem computes_takeInError (problem : Problem) :
    (takeInError problem).Computes (·.takeInError problem) :=
  ((computes_report _).seq (computes_take _)).node _

theorem computes_argument : argument.Computes Grammar.argument :=
  (computes_doubleString _).either ((computes_nested _ _).either ((computes_nested _ _).either
    ((computes_globalMacro _).either ((computes_takeInError _).either
      ((computes_takeInError _).either (computes_take _) (Run.isAt_iff · _))
        fun s => by simp [AtOpenComment, Run.isAt_iff, Run.ahead]) (Run.isAt_iff · _))
      (Run.isAt_iff · _)) (Run.isAt_iff · _)) (Run.isAt_iff · _)

theorem computes_arguments : arguments.Computes Grammar.arguments :=
  computes_argument.many moves_argument atLineEnd_iff

theorem computes_trailingComments : trailingComments.Computes Grammar.trailingComments :=
  computes_argument.many moves_argument fun s => by
    rw [Classical.not_not]
    simp [Grammar.atTrailingComment, AtTrailingComment, Run.isAt_iff, or_assoc]

theorem computes_remnant : remnant.Computes fun s =>
    if s.atLineEnd then s else s.node .error fun s => Grammar.arguments (s.report .expectedEndOfLine) :=
  computes_skip.either (((computes_report _).seq computes_arguments).node _) Run.atLineEnd_iff

theorem computes_endOfLine : endOfLine.Computes Grammar.endOfLine :=
  computes_trailingComments.seq (computes_remnant.seq (computes_eat .newline .statement))

theorem computes_nameWord : nameWord.Computes Grammar.word := (computes_word _ _ _).node _

theorem computes_name (problem : Problem) : (name problem).Computes (Grammar.name problem) :=
  computes_nameWord.either (computes_report _) fun _ => Iff.rfl

end Dofile.Reading
