import Dofile.Proofs.Lookahead
import Dofile.Proofs.Mata

/-!
# Readings of statements and files

The statements, the lines that hold them and the programs that hold lines in turn.
Programs nest without bound, so the reading of a line is indexed by how deep, as the
rule for it is. It leads on wherever the text is no longer than that.
-/

namespace Dofile.Reading

open Grammar (programWords localWords globalWords temporaryWords prefixWords prefixApplies atProgramSubcommand)

/-! ## Simple statements -/

def comment : Reading := node .comment argument

def blockClose : Reading := node .blockClose ((take .statement).seq arguments)

def macroDefinition : Reading :=
  node .macroDefinition <|
    (either (·.IsWordOf localWords) (word .localKeyword .statement) (word .globalKeyword .statement)).seq
      ((name .expectedMacroName).seq arguments)

def temporaryDefinition : Reading :=
  node .macroDefinition <|
    (word .tempKeyword .statement).seq <| (either Lexer.IsWord skip (report .expectedSomeName)).seq <|
      (many (fun l => ¬ l.IsWord) nameWord).seq trailingComments

def strayEnd : Reading :=
  node .error ((report .strayEnd).seq ((word .endKeyword .statement Kind.endKeyword_mem_wordLabels).seq
    trailingComments)) Kind.isNode_error

/-! ## Commands -/

def commandPrefix : Reading :=
  node .commandPrefix ((word .prefixKeyword .statement).seq (eat .colon .statement))

def AtPrefix (l : Lexer) : Prop := l.IsWordOf prefixWords ∧ prefixApplies l.after = true

def commandHead : Reading :=
  either Lexer.IsWord nameWord <|
  either (·.kind = .unknown) argument (node .error ((report .expectedCommandName).seq argument) Kind.isNode_error)

def command : Reading :=
  node .command ((many (fun l => ¬ AtPrefix l) commandPrefix).seq (commandHead.seq arguments))

/-! ## Programs and lines -/

def programHead : Reading :=
  (word .programKeyword .statement).seq <|
    (either (·.IsWordOf ["define"]) (word .defineKeyword .statement) skip).seq <|
      (name .expectedProgramName).seq arguments

def ProgramEnds (l : Lexer) : Prop := l.kind = .eof ∨ l.IsWordOf ["end"]

def programDefinition (line : Reading) : Reading :=
  ended .programDefinition .missingProgramEnd (programHead.seq (many ProgramEnds line))

def AtProgram (l : Lexer) : Prop := l.IsWordOf programWords ∧ atProgramSubcommand l.after = false

def statement (line : Reading) : Reading :=
  either (·.kind.isComment = true) comment <|
  either (·.kind = .rightBrace) blockClose <|
  either AtProgram (programDefinition line) <|
  either (·.IsWordOf ["mata"]) mataBlock <|
  either (fun l => l.IsWordOf localWords ∨ l.IsWordOf globalWords) macroDefinition <|
  either (·.IsWordOf temporaryWords) temporaryDefinition <|
  either (·.IsWordOf ["end"]) strayEnd command

def fullLine (line : Reading) : Reading :=
  (many (·.kind ≠ .blockComment) comment).seq ((either Lexer.EndsLine skip (statement line)).seq endOfLine)

def lineWith (line : Reading) : Reading :=
  (either (·.kind = .newline) (take .statement) (fullLine line)).when (·.kind ≠ .eof)

/-- A line with at most `depth` programs within programs. -/
def line : Nat → Reading
  | 0 => none
  | depth + 1 => lineWith (line depth)

def lines (depth : Nat) : Reading := many (·.kind = .eof) (line depth)

/-! ## Progress -/

theorem moves_comment : comment.Moves := moves_argument.node _

theorem moves_commandPrefix : commandPrefix.Moves := ((moves_word _ _ _).seq _).node _

theorem moves_commandHead : commandHead.Moves :=
  moves_nameWord.either (moves_argument.either ((moves_argument.after _).node _) _) _

theorem moves_programHead : programHead.Moves := (moves_word _ _ _).seq _

theorem moves_blockClose : blockClose.Moves := ((moves_take _).seq _).node _

theorem moves_programDefinition (line : Reading) : (programDefinition line).Moves :=
  (moves_programHead.seq _).ended

theorem moves_macroDefinition : macroDefinition.Moves :=
  (((moves_word _ _ _).either (moves_word _ _ _) _).seq _).node _

theorem moves_temporaryDefinition : temporaryDefinition.Moves := ((moves_word _ _ _).seq _).node _

theorem moves_strayEnd : strayEnd.Moves := (((moves_word _ _ _).seq _).after _).node _

theorem moves_command : command.Moves := ((moves_commandHead.seq _).after _).node _

theorem moves_statement (line : Reading) : (statement line).Moves :=
  moves_comment.either (moves_blockClose.either ((moves_programDefinition line).either
    (moves_mataBlock.either (moves_macroDefinition.either (moves_temporaryDefinition.either
      (moves_strayEnd.either moves_command _) _) _) _) _) _) _

theorem moves_lineWith (line : Reading) : (lineWith line).Moves := by
  intro l items l' h
  obtain ⟨he, ⟨-, h⟩ | ⟨hn, h⟩⟩ := h
  · exact moves_take _ h
  · obtain ⟨_, m, _, hmany, ⟨_, m', _, hstatement, hend, -⟩, -⟩ := h
    have hle := (endOfLine.account hend).rest_le
    -- a line that is not empty begins with a comment or has a statement
    by_cases hb : l.kind = .blockComment
    · have hlt := moves_of_many moves_comment (fun h => h hb) hmany
      have hle' := ((either Lexer.EndsLine skip (statement line)).account hstatement).rest_le
      omega
    · cases hmany with
      | more h => exact absurd hb h
      | done =>
        rcases hstatement with ⟨hends, -⟩ | ⟨-, hstatement⟩
        · exact absurd hends fun h => h.elim hn he
        · have := moves_statement line hstatement
          omega

theorem moves_line : ∀ depth : Nat, (line depth).Moves
  | 0 => fun _ _ _ h => h.elim
  | depth + 1 => moves_lineWith (line depth)

/-! ## Totality -/

theorem total_blockClose : blockClose.TotalOn (·.kind = .rightBrace) :=
  TotalOn.node (TotalOn.seq ((total_take _).mono fun l (h : l.kind = .rightBrace) => h ▸ by decide)
    total_arguments) _

theorem total_macroDefinition : macroDefinition.TotalOn Lexer.IsWord :=
  TotalOn.node (TotalOn.seq (TotalOn.either ((total_word _ _ _).mono fun _ h => h.1)
    ((total_word _ _ _).mono fun _ h => h.1)) ((total_name _).seq total_arguments)) _

theorem total_temporaryDefinition : temporaryDefinition.TotalOn Lexer.IsWord :=
  TotalOn.node (TotalOn.seq (total_word _ _ _) <| Total.seq
    (Total.either (total_skip.on _) ((total_report _).on _)) <| Total.seq
      (total_many (total_nameWord.mono fun _ h => Classical.not_not.mp h) moves_nameWord)
      total_trailingComments) _

theorem total_strayEnd : strayEnd.TotalOn Lexer.IsWord :=
  (((total_word _ _ _).seq total_trailingComments).report_seq _).node _

theorem total_commandPrefix : commandPrefix.TotalOn Lexer.IsWord :=
  TotalOn.node (TotalOn.seq (total_word _ _ _) (total_eat (by decide) _)) _

theorem total_commandHead : commandHead.TotalOn fun l => l.kind ≠ .eof :=
  TotalOn.either (total_nameWord.mono fun _ h => h.2) <|
    TotalOn.either (total_argument.mono fun _ h => h.1.1) <|
    ((total_argument.mono fun _ h => h.1.1).report_seq _).node _

/-- Behind a prefix there is a word. -/
theorem isWord_of_commandPrefix {l m : Lexer} {items : List Item} (h : AtPrefix l)
    (hp : commandPrefix.leads l items m) : m.IsWord := by
  obtain ⟨_, ⟨_, _, _, ⟨-, -, rfl⟩, heat, -⟩, -⟩ := hp
  rcases heat with ⟨hcolon, -, -, rfl⟩ | ⟨hcolon, -, rfl⟩
  · rcases (Grammar.prefixApplies_iff l).mp h.2 with hword | ⟨-, hword⟩
    · exact absurd hword (Lexer.not_isWord_of_colon hcolon)
    · exact hword
  · exact ((Grammar.prefixApplies_iff l).mp h.2).resolve_right fun hk => hcolon hk.1

theorem ne_eof_of_prefixes {l m : Lexer} {items : List Item} (hl : l.kind ≠ .eof)
    (h : (many (fun l => ¬ AtPrefix l) commandPrefix).leads l items m) : m.kind ≠ .eof := by
  induction h with
  | done => exact hl
  | more hs first _ ih =>
    exact ih (isWord_of_commandPrefix (Classical.not_not.mp hs) first).ne_eof

theorem total_command : command.TotalOn fun l => l.kind ≠ .eof := fun l hl => by
  obtain ⟨is, m, hprefixes⟩ := total_many
    (total_commandPrefix.mono fun l (h : ¬ ¬ AtPrefix l) => (Classical.not_not.mp h).1.1) moves_commandPrefix l
  obtain ⟨js, m', hhead⟩ := total_commandHead m (ne_eof_of_prefixes hl hprefixes)
  obtain ⟨ks, l', harguments⟩ := total_arguments m'
  exact ⟨_, l', _, ⟨is, m, _, hprefixes, ⟨js, m', ks, hhead, harguments, rfl⟩, rfl⟩, rfl⟩

theorem total_programHead : programHead.TotalOn Lexer.IsWord :=
  (total_word _ _ _).seq <| Total.seq
    (Total.either ((total_word _ _ _).mono fun _ h => h.1) (total_skip.on _)) <|
    (total_name _).seq total_arguments

/-- A program can be read where its lines can be, from behind its keyword. -/
theorem total_programDefinition {line : Reading} {bound : Nat}
    (h : line.TotalOn fun l => l.kind ≠ .eof ∧ l.rest.length < bound) (hm : line.Moves) :
    (programDefinition line).TotalOn fun l => l.IsWord ∧ l.rest.length < bound + 1 := by
  refine TotalOn.ended (TotalOn.seq_of (total_programHead.mono fun _ h => h.1) (fun hl hhead => ?_)
    (totalOn_many (h.mono fun l hl => ⟨fun he => hl.1 (.inl he), hl.2⟩) hm)) ?_
  · have := moves_programHead hhead
    omega
  · intro _ _ m ⟨_, _, _, _, hmany, _⟩ he
    exact ((stops_of_many hmany).resolve_left he).1

theorem total_statement {line : Reading} {bound : Nat}
    (h : line.TotalOn fun l => l.kind ≠ .eof ∧ l.rest.length < bound) (hm : line.Moves) :
    (statement line).TotalOn fun l => l.kind ≠ .eof ∧ l.rest.length < bound + 1 :=
  TotalOn.either ((total_argument.node _).mono fun _ h => h.1.1) <|
    TotalOn.either (total_blockClose.mono fun _ h => h.2) <|
    TotalOn.either ((total_programDefinition h hm).mono fun _ h => ⟨h.2.1.1, h.1.1.1.2⟩) <|
    TotalOn.either (total_mataBlock.mono fun _ h => h.2.1) <|
    TotalOn.either (total_macroDefinition.mono fun _ h => h.2.elim (·.1) (·.1)) <|
    TotalOn.either (total_temporaryDefinition.mono fun _ h => h.2.1) <|
    TotalOn.either (total_strayEnd.mono fun _ h => h.2.1)
      (total_command.mono fun _ h => h.1.1.1.1.1.1.1.1)

theorem total_fullLine {line : Reading} {bound : Nat}
    (h : line.TotalOn fun l => l.kind ≠ .eof ∧ l.rest.length < bound) (hm : line.Moves) :
    (fullLine line).TotalOn fun l => l.rest.length < bound + 1 := by
  have hcomments : (many (·.kind ≠ .blockComment) comment).Total :=
    total_many ((total_argument.node _).mono fun l hl => by
      rw [Classical.not_not.mp hl]
      decide) moves_comment
  have hstatement : (either Lexer.EndsLine skip (statement line)).TotalOn fun l => l.rest.length < bound + 1 :=
    TotalOn.either (total_skip.on _)
      ((total_statement h hm).mono fun _ hl => ⟨Lexer.ne_eof_of_not_endsLine hl.2, hl.1⟩)
  exact TotalOn.seq_of (hcomments.on _)
    (fun hl hmany => Nat.lt_of_le_of_lt ((many _ comment).account hmany).rest_le hl)
    (hstatement.seq total_endOfLine)

theorem total_lineWith {line : Reading} {bound : Nat}
    (h : line.TotalOn fun l => l.kind ≠ .eof ∧ l.rest.length < bound) (hm : line.Moves) :
    (lineWith line).TotalOn fun l => l.kind ≠ .eof ∧ l.rest.length < bound + 1 := fun l hl => by
  have hline := TotalOn.either (c := (·.kind = .newline)) (d := fun l => l.rest.length < bound + 1)
    ((total_take .statement).mono fun l hl => by rw [hl.2]; decide)
    ((total_fullLine h hm).mono fun _ hl => hl.1)
  obtain ⟨items, l', hleads⟩ := hline l hl.2
  exact ⟨items, l', hl.1, hleads⟩

/-- Lines can be read wherever no more is left than programs may nest. -/
theorem total_line : ∀ depth : Nat, (line depth).TotalOn fun l => l.kind ≠ .eof ∧ l.rest.length < depth + 1
  | 0 => fun l hl => absurd hl.2 (by
      have := List.length_pos_iff.mpr (Lexer.rest_ne_nil hl.1)
      omega)
  | depth + 1 => total_lineWith (total_line depth) (moves_line depth)

theorem total_lines (depth : Nat) : (lines depth).TotalOn fun l => l.rest.length < depth + 1 :=
  totalOn_many (total_line depth) (moves_line depth)

/-! ## Rules -/

theorem computes_comment : comment.Computes Grammar.comment := computes_argument.node _

theorem computes_blockClose : blockClose.Computes Grammar.blockClose :=
  ((computes_take _).seq computes_arguments).node _

theorem computes_macroKeyword :
    (either (·.IsWordOf localWords) (word .localKeyword .statement) (word .globalKeyword .statement)).Computes
      fun s => s.takeAs (if s.atWordOf localWords then .localKeyword else .globalKeyword) .statement := by
  intro s items l' h
  have hrule := ((computes_word .localKeyword .statement (by decide)).either
    (computes_word .globalKeyword .statement (by decide)) (atWordOf_iff · localWords)) h
  rw [← hrule]
  exact apply_ite (fun kind => s.takeAs kind .statement) _ _ _

theorem computes_macroDefinition : macroDefinition.Computes Grammar.macroDefinition :=
  (computes_macroKeyword.seq ((computes_name _).seq computes_arguments)).node _

theorem computes_temporaryDefinition : temporaryDefinition.Computes Grammar.temporaryDefinition :=
  ((computes_word _ _ _).seq ((computes_skip.either (computes_report _) fun _ => Iff.rfl).seq
    ((computes_nameWord.many moves_nameWord fun _ => Classical.not_not.symm).seq
      computes_trailingComments))).node _

theorem computes_strayEnd : strayEnd.Computes Grammar.strayEnd :=
  ((computes_report _).seq ((computes_word _ _ _).seq computes_trailingComments)).node _

theorem computes_commandPrefix : commandPrefix.Computes Grammar.commandPrefix :=
  ((computes_word _ _ _).seq (computes_eat _ _)).node _

theorem atPrefix_iff (s : Run) : Grammar.atPrefix s = true ↔ AtPrefix s.lexer := by
  rw [Grammar.atPrefix, Bool.and_eq_true, atWordOf_iff]
  rfl

theorem computes_commandHead : commandHead.Computes Grammar.commandHead :=
  computes_nameWord.either (computes_argument.either
    (((computes_report _).seq computes_argument).node _) (Run.isAt_iff · _)) fun _ => Iff.rfl

theorem computes_command : command.Computes Grammar.command :=
  ((computes_commandPrefix.many moves_commandPrefix fun s => by rw [Classical.not_not, atPrefix_iff]).seq
    (computes_commandHead.seq computes_arguments)).node _

def openProgram (s : Run) : Run :=
  let s := s.takeAs .programKeyword .statement
  let s := if s.atWordOf ["define"] then s.takeAs .defineKeyword .statement else s
  Grammar.arguments (Grammar.name .expectedProgramName s)

theorem computes_programHead : programHead.Computes openProgram := by
  have hdefine : (either (·.IsWordOf ["define"]) (word .defineKeyword .statement) skip).Computes fun s =>
      if s.atWordOf ["define"] then s.takeAs .defineKeyword .statement else s :=
    (computes_word _ _ _).either computes_skip (atWordOf_iff · _)
  have hrule := (computes_word .programKeyword .statement (by decide)).seq
    (hdefine.seq ((computes_name .expectedProgramName).seq computes_arguments))
  exact hrule

section
variable {line : Reading} {rule : Run → Run} (h : line.Computes rule) (hm : line.Moves)
include h hm

theorem computes_programDefinition :
    (programDefinition line).Computes (Grammar.programDefinition rule) := by
  intro s items l' hp
  have hends : ∀ s : Run, (!s.isAt .eof && !s.atWordOf ["end"]) = true ↔ ¬ ProgramEnds s.lexer := by
    intro s
    rw [ProgramEnds, ← Run.isAt_iff, ← atWordOf_iff]
    simp
  have hbody := computes_programHead.seq (h.many hm hends)
  have hrule := hbody.ended hp
  simp only [Grammar.programDefinition]
  exact hrule

theorem computes_statement : (statement line).Computes (Grammar.statement rule) :=
  computes_comment.either (computes_blockClose.either ((computes_programDefinition h hm).either
    (computes_mataBlock.either (computes_macroDefinition.either (computes_temporaryDefinition.either
      (computes_strayEnd.either computes_command (atWordOf_iff · _)) (atWordOf_iff · _))
        fun s => by rw [Bool.or_eq_true, atWordOf_iff, atWordOf_iff]) (atWordOf_iff · _))
      fun s => by rw [Bool.and_eq_true, Bool.not_eq_true', atWordOf_iff]; rfl) (Run.isAt_iff · _))
    fun _ => Iff.rfl

theorem computes_fullLine : (fullLine line).Computes fun s =>
    let s := s.repeatWhile (·.isAt .blockComment) Grammar.comment
    Grammar.endOfLine (if s.atLineEnd then s else Grammar.statement rule s) :=
  (computes_comment.many moves_comment fun s => by rw [Classical.not_not, Run.isAt_iff]).seq
    ((computes_skip.either (computes_statement h hm) Run.atLineEnd_iff).seq computes_endOfLine)

theorem computes_lineWith : (lineWith line).Computes (Grammar.lineWith rule) :=
  ((computes_take _).either (computes_fullLine h hm) (Run.isAt_iff · _)).when _

end

theorem computes_line : ∀ depth : Nat, (line depth).Computes (Grammar.line depth)
  | 0 => fun _ _ _ h => h.elim
  | depth + 1 => computes_lineWith (computes_line depth) (moves_line depth)

theorem computes_lines (depth : Nat) :
    (lines depth).Computes (·.repeatWhile (!·.isAt .eof) (Grammar.line depth)) :=
  (computes_line depth).many (moves_line depth) fun s => by rw [← Run.isAt_iff]; simp

/-- The run over a whole text: its lines and the end of the text. -/
theorem sourceFile_emit {text : List Char} {items : List Item} {l : Lexer}
    (h : (lines text.length).leads (.ofText text) items l) :
    Grammar.sourceFile (.ofText text) = (Run.ofText text).emit [.node .sourceFile (items ++ [l.item])] l := by
  have hlines := computes_lines text.length (s := (Run.ofText text).start) h
  have hend : l.kind = .eof := stops_of_many h
  have htake := Run.takeEnd_emit (s := (Run.ofText text).start.emit items l) hend
  refine Run.node_emit ?_ .sourceFile
  rw [← Run.emit_emit _ _ _ l]
  exact (congrArg Run.takeEnd hlines).trans htake

/-- Every text can be read to its end. -/
theorem exists_lines (text : List Char) : ∃ items l, (lines text.length).leads (.ofText text) items l :=
  total_lines text.length (.ofText text) (Nat.lt_succ_self _)

end Dofile.Reading
