import Dofile.Proofs.Concat
import Dofile.Proofs.Context
import Dofile.Proofs.Tiling

/-!
# Progress

Every turn of a loop of the grammar moves the token ahead on, so every loop ends. The
loop over nested constructs may instead give up the innermost one, where the line ends.
The fuel that the rules carry plays no part in this: a line is read by the rules for lines,
and the loops go on until their conditions fail.
-/

namespace Dofile

/-! ## Offsets -/

def Lexer.Advances (l l' : Lexer) : Prop :=
  l.ahead.offset < l'.ahead.offset ∧ l'.rest.length < l.rest.length

theorem Lexer.advances_next {l : Lexer} (h : l.kind ≠ .eof) (mode : Mode) : l.Advances (l.next mode) :=
  ⟨Nat.lt_of_le_of_lt (Nat.le_add_right _ _) (l.start_lt_stop h), after_length_lt h⟩

theorem Account.advances {l l' : Lexer} {items : List Item} (h : Account l items l')
    (hrest : l'.rest.length < l.rest.length) : l.Advances l' := by
  have htext := congrArg List.length h.text
  rw [List.length_append] at htext
  have hsize := length_le_byteSize (Script.textAll (Item.scriptsAll items))
  have hoffset := h.starts.2
  refine ⟨?_, hrest⟩
  change l.offset < l'.offset
  omega

theorem Reading.advances {R : Reading} {rule : Run → Run} (hc : R.Computes rule) (hm : R.Moves) {s : Run}
    (h : ∃ items l', R.leads s.lexer items l') : s.lexer.Advances (rule s).lexer := by
  obtain ⟨items, l', h⟩ := h
  rw [hc h]
  exact (R.account h).advances (hm h)

/-! ## Lines without fuel -/

namespace Grammar

/-- A line with all programs within programs that what is left of the text can hold. -/
def anyLine (s : Run) : Run := line s.rest.length s

end Grammar

namespace Reading

theorem computes_anyLine : (any line).Computes Grammar.anyLine := by
  intro s items l' ⟨depth, h⟩
  by_cases he : s.lexer.kind = .eof
  · cases depth with
    | zero => exact h.elim
    | succ depth => exact absurd he h.1
  · obtain ⟨items', l'', hline⟩ := total_line s.rest.length s.lexer ⟨he, Nat.lt_succ_self _⟩
    -- the depths may differ, but both readings are ones of a greater depth
    have hmax := computes_line _ (line_le (Nat.le_max_left depth s.rest.length) h)
    have hmax' := computes_line _ (line_le (Nat.le_max_right depth s.rest.length) hline)
    exact (computes_line _ hline).trans (hmax'.symm.trans hmax)

theorem moves_anyLine : (any line).Moves := by
  intro _ _ _ ⟨depth, h⟩
  exact moves_line depth h

theorem total_anyLine : (any line).TotalOn fun l => l.kind ≠ .eof := fun l hl => by
  obtain ⟨items, l', h⟩ := total_line l.rest.length l ⟨hl, Nat.lt_succ_self _⟩
  exact ⟨items, l', _, h⟩

theorem le_any (R : Nat → Reading) (n : Nat) : Le (R n) (any R) := fun _ _ _ h => ⟨n, h⟩

end Reading

namespace Grammar

theorem lineWith_of_eof {s : Run} (h : s.lexer.kind = .eof) (rule : Run → Run) : lineWith rule s = s := by
  have hat : ∀ k, k ≠ .eof → s.isAt k = false := fun k hk => by
    rw [Run.isAt_eq_false_iff, h]
    exact hk.symm
  have hend : s.atLineEnd = true := (Run.atLineEnd_iff s).mpr (.inr h)
  have hcomments : s.repeatWhile (·.isAt .blockComment) comment = s := by
    unfold Run.repeatWhile
    exact repeatWhile_of_false (by simp [hat]) _
  have htrailing : trailingComments s = s :=
    repeatWhile_of_false (by simp [atTrailingComment, hat]) _
  simp [lineWith, hat, hcomments, hend, endOfLine, htrailing, Run.eat]

/-- The rule for lines is made from itself. -/
theorem anyLine_eq (s : Run) : anyLine s = lineWith anyLine s := by
  by_cases he : s.lexer.kind = .eof
  · rw [lineWith_of_eof he, anyLine]
    cases s.rest.length with
    | zero => rfl
    | succ depth => exact lineWith_of_eof he _
  · obtain ⟨items, l', h⟩ := Reading.total_line s.rest.length s.lexer ⟨he, Nat.lt_succ_self _⟩
    rw [Reading.computes_anyLine ⟨_, h⟩]
    cases hdepth : s.rest.length with
    | zero =>
      rw [hdepth] at h
      exact h.elim
    | succ depth =>
      rw [hdepth] at h
      have hany := (Reading.le_any Reading.line depth).lineWith h
      exact (Reading.computes_lineWith Reading.computes_anyLine Reading.moves_anyLine hany).symm

theorem sourceFile_eq (s : Run) : sourceFile s =
    s.node .sourceFile fun s => (s.repeatWhile (!·.isAt .eof) anyLine).takeEnd := by
  have hlines : ∀ t : Run, t.repeatWhile (!·.isAt .eof) (line t.rest.length) =
      t.repeatWhile (!·.isAt .eof) anyLine := by
    intro t
    obtain ⟨items, l', h⟩ := Reading.total_lines t.rest.length t.lexer (Nat.lt_succ_self _)
    have hany := (Reading.le_any Reading.line t.rest.length).many (·.kind = .eof) h
    have hrule : (Reading.many (·.kind = .eof) (Reading.any Reading.line)).Computes
        (·.repeatWhile (!·.isAt .eof) anyLine) :=
      Reading.computes_anyLine.many Reading.moves_anyLine fun s => by
        rw [← Run.isAt_iff]
        simp
    exact (Reading.computes_lines _ h).trans (hrule hany).symm
  simp only [sourceFile, hlines]

end Grammar

/-! ## The loops of the rules -/

namespace Loop

open Grammar

def run (loop : Loop Run) (s : Run) : Run := s.repeatWhile loop.goesOn loop.turn

def lines : Loop Run := ⟨(!·.isAt .eof), anyLine⟩

def programLines : Loop Run := ⟨fun s => !s.isAt .eof && !s.atWordOf ["end"], anyLine⟩

def comments : Loop Run := ⟨(·.isAt .blockComment), comment⟩

def arguments : Loop Run := ⟨(!·.atLineEnd), argument⟩

def trailingComments : Loop Run := ⟨atTrailingComment, argument⟩

def names : Loop Run := ⟨Run.atWord, word⟩

def prefixes : Loop Run := ⟨atPrefix, commandPrefix⟩

def mataLines : Loop Run := ⟨fun s => !s.isAt .eof && !s.isAt .controlKeyword, (·.takeIn .mataLine)⟩

def stringItems : Loop Run := ⟨fun s => !s.isAt .doubleQuote && !s.atLineEnd, stringItem⟩

/-- The loops of the rules, but for the one over nested constructs. -/
def ofRules : List (Loop Run) :=
  [lines, programLines, comments, arguments, trailingComments, names, prefixes, mataLines, stringItems]

theorem advances : ∀ loop ∈ ofRules, ∀ s, loop.goesOn s = true → s.lexer.Advances (loop.turn s).lexer := by
  have hend : ∀ {s : Run}, (!s.isAt .eof) = true → s.lexer.kind ≠ .eof := by
    intro s h
    rwa [Bool.not_eq_true', Run.isAt_eq_false_iff] at h
  have hboth : ∀ {s : Run} {b : Bool}, (!s.isAt .eof && b) = true → s.lexer.kind ≠ .eof := fun h =>
    hend (Bool.and_eq_true_iff.mp h).1
  intro loop hloop s h
  simp only [ofRules, List.mem_cons, List.not_mem_nil, or_false] at hloop
  rcases hloop with rfl | rfl | rfl | rfl | rfl | rfl | rfl | rfl | rfl
  · exact Reading.advances Reading.computes_anyLine Reading.moves_anyLine (Reading.total_anyLine _ (hend h))
  · exact Reading.advances Reading.computes_anyLine Reading.moves_anyLine (Reading.total_anyLine _ (hboth h))
  · have hk := (Run.isAt_iff s .blockComment).mp h
    exact Reading.advances Reading.computes_comment Reading.moves_comment
      (Reading.total_argument.node _ s.lexer (by rw [hk]; decide))
  · exact Reading.advances Reading.computes_argument Reading.moves_argument
      (Reading.total_argument _ (Lexer.ne_eof_of_not_endsLine ((Reading.atLineEnd_iff s).mp h)))
  · have hat : Reading.AtTrailingComment s.lexer := by
      simpa [trailingComments, atTrailingComment, Reading.AtTrailingComment, Run.isAt_iff, or_assoc] using h
    exact Reading.advances Reading.computes_argument Reading.moves_argument (Reading.total_argument _ hat.ne_eof)
  · exact Reading.advances Reading.computes_nameWord Reading.moves_nameWord (Reading.total_nameWord _ h)
  · exact Reading.advances Reading.computes_commandPrefix Reading.moves_commandPrefix
      (Reading.total_commandPrefix _ ((Reading.atPrefix_iff s).mp h).1.1)
  · exact Reading.advances (Reading.computes_take .mataLine) (Reading.moves_take _) (Reading.total_take _ _ (hboth h))
  · have hends : ¬ Reading.StringEnds s.lexer := by
      rw [Reading.StringEnds, ← Run.isAt_iff, ← Run.atLineEnd_iff]
      simpa [stringItems] using h
    exact Reading.advances Reading.computes_stringItem Reading.moves_stringItem (Reading.total_stringItem _ hends)

theorem ends_run {loop : Loop Run} (h : loop ∈ ofRules) (s : Run) : loop.Ends s (loop.run s) := by
  have hdone := @repeatWhile_done Char Run loop.goesOn loop.turn (fun s => s.rest.length)
    (fun s hs => (advances loop h s hs).2) s.rest s (Nat.le_refl _)
  exact ⟨reaches_repeatWhile (fun _ hs => ⟨hs, rfl⟩) s.rest s, hdone⟩

end Loop

/-- The rules, with their loops as such. -/
structure RulesRunLoops : Prop where
  sourceFile : ∀ s : Run, Grammar.sourceFile s = s.node .sourceFile fun s => (Loop.lines.run s).takeEnd
  line : ∀ s : Run, Grammar.anyLine s =
    if s.isAt .newline then s.take
    else
      let s := Loop.comments.run s
      Grammar.endOfLine (if s.atLineEnd then s else Grammar.statement Grammar.anyLine s)
  programDefinition : ∀ s : Run, Grammar.programDefinition Grammar.anyLine s =
    let opened := s.start.takeAs .programKeyword .statement
    let opened := if opened.atWordOf ["define"] then opened.takeAs .defineKeyword .statement else opened
    let body := Loop.programLines.run (Grammar.arguments (Grammar.name .expectedProgramName opened))
    if body.isAt .eof then (body.reportAt .missingProgramEnd s.ahead.span).closeInError s.mark .programDefinition
    else (Grammar.trailingComments (body.takeAs .endKeyword .statement)).close s.mark .programDefinition
  arguments : ∀ s : Run, Grammar.arguments s = Loop.arguments.run s
  trailingComments : ∀ s : Run, Grammar.trailingComments s = Loop.trailingComments.run s
  endOfLine : ∀ s : Run, Grammar.endOfLine s =
    let s := Loop.trailingComments.run s
    let s := if s.atLineEnd then s else s.node .error fun s => Loop.arguments.run (s.report .expectedEndOfLine)
    s.eat .newline
  temporaryDefinition : ∀ s : Run, Grammar.temporaryDefinition s = s.node .macroDefinition fun s =>
    let s := s.takeAs .tempKeyword .statement
    Grammar.trailingComments (Loop.names.run (if s.atWord then s else s.report .expectedSomeName))
  command : ∀ s : Run, Grammar.command s = s.node .command fun s =>
    Grammar.arguments (Grammar.commandHead (Loop.prefixes.run s))
  mataLines : ∀ (mark : Nat) (opener : Span) (s : Run), Grammar.mataLines mark opener s =
    let body := Loop.mataLines.run s
    if body.isAt .eof then (body.reportAt .missingMataEnd opener).closeInError mark .mataBlock
    else (Grammar.trailingComments (body.takeAs .endKeyword .statement)).close mark .mataBlock
  doubleString : ∀ (outer : Mode) (s : Run), Grammar.doubleString outer s =
    let s := s.expect .doubleQuote
    let body := Loop.stringItems.run (s.start.takeIn .doubleString)
    if body.isAt .doubleQuote then (body.takeIn outer).close s.mark .doubleString
    else Grammar.unterminated body s.mark .doubleString s.ahead.span .unterminatedString outer
  -- the only place where nested constructs begin
  argument : ∀ s : Run, Grammar.argument s =
    if s.isAt .doubleQuote then Grammar.doubleString .statement s
    else if s.isAt .compoundOpen then Grammar.nested .compoundString .statement s
    else if s.isAt .backtick then Grammar.nested .localMacro .statement s
    else if s.isAt .dollar then Grammar.globalMacro .statement s
    else if s.isAt .blockComment && !Lexeme.isTerminatedBlockComment s.ahead.text then
      s.takeInError .unterminatedBlockComment
    else if s.isAt .unknown then s.takeInError .unexpectedCharacter
    else s.take
  nested : ∀ (family : Family) (outer : Mode) (s : Run), Grammar.nested family outer s =
    Grammar.finishFrames (Grammar.openFrame family 1 outer (s, []))

theorem rules_run_loops : RulesRunLoops where
  sourceFile := Grammar.sourceFile_eq
  line := Grammar.anyLine_eq
  programDefinition _ := rfl
  arguments _ := rfl
  trailingComments _ := rfl
  endOfLine _ := rfl
  temporaryDefinition _ := rfl
  command _ := rfl
  mataLines _ _ _ := rfl
  doubleString _ _ := rfl
  argument _ := rfl
  nested _ _ _ := rfl

/-! ## Nested constructs -/

namespace Grammar

theorem nestingStep_advances {s : Run} (hs : ¬ s.lexer.EndsLine) (frame : Frame) (frames : List Frame) :
    s.lexer.Advances (nestingStep (s, frame :: frames)).1.lexer := by
  have he := Lexer.ne_eof_of_not_endsLine hs
  have hopened : ∀ family depth,
      s.lexer.Advances (openFrame family depth frame.family.mode (s, frame :: frames)).1.lexer := by
    intro family depth
    rw [openFrame, Run.takeIn_lexer (by simpa using he)]
    simpa using Lexer.advances_next he family.mode
  cases hc : s.isAt frame.family.closer with
  | true =>
    rw [nestingStep_closer hc, closeFrame, Run.close_lexer, Run.takeIn_lexer he]
    exact Lexer.advances_next he _
  | false =>
    rw [nestingStep_item hc]
    unfold itemStep
    simp only
    split
    · exact hopened _ _
    split
    · exact hopened _ _
    split
    · rename_i hd
      exact Reading.advances (Reading.computes_globalMacro _) (Reading.moves_globalMacro _)
        (Reading.total_globalMacro _ _ ((Run.isAt_iff s _).mp hd))
    split
    · rename_i hq
      exact Reading.advances (Reading.computes_doubleString _) (Reading.moves_doubleString _)
        (Reading.total_doubleString _ _ ((Run.isAt_iff s _).mp hq))
    · rw [Run.takeIn_lexer he]
      exact Lexer.advances_next he _

/-- Each turn over nested constructs moves on, or takes one of them off the stack at the end of the
line and leaves the token ahead as it is. -/
theorem nestingTurn_cases {n : Nesting} (h : Nested n) (hn : n.2 ≠ []) :
    n.1.ahead.offset < (nestingTurn n).1.ahead.offset ∨
      n.1.atLineEnd = true ∧ (nestingTurn n).2 = n.2.tail ∧ (nestingTurn n).1.ahead = n.1.ahead := by
  obtain ⟨s, stack⟩ := n
  obtain ⟨frame, stack, rfl⟩ := List.exists_cons_of_ne_nil hn
  by_cases hs : s.lexer.EndsLine
  · rw [nestingTurn_of_endsLine hs]
    exact .inr ⟨(Run.atLineEnd_iff s).mpr hs, rfl, ahead_abandonFrame h hs⟩
  · rw [nestingTurn_of_not_endsLine hs]
    exact .inl (nestingStep_advances hs frame stack).1

end Grammar

/-! ## All loops -/

open Grammar

/-- Every loop of the rules ends. Each turn moves the token ahead on, where the loop over nested
constructs may at the end of a line give up the innermost one instead. So the rules come to the end of
every text. They log at most nine events for each byte and three more, and as long as the positions of so many
have 32 bits, a run meets all that it relies on and its log makes a parse. -/
theorem loops_end :
    RulesRunLoops ∧
      (∀ loop ∈ Loop.ofRules, ∀ s : Run, loop.Ends s (loop.run s) ∧
        (loop.goesOn s = true → s.ahead.offset < (loop.turn s).ahead.offset)) ∧
      (∀ (family : Family) (depth : Nat) (outer : Mode) (s : Run), s.isAt family.opener = true →
        outer ≠ .mataBrace →
          let first := openFrame family depth outer (s, [])
          frames.Ends first (finishFrames first, []) ∧
            ∀ n, frames.Reaches first n → n.2 ≠ [] →
              n.1.ahead.offset < (nestingTurn n).1.ahead.offset ∨
                n.1.atLineEnd = true ∧ (nestingTurn n).2 = n.2.tail ∧ (nestingTurn n).1.ahead = n.1.ahead) ∧
      (∀ (s : Run) (mode : Mode), (s.relex mode).ahead.offset = s.ahead.offset) ∧
      ∀ text : List Char, (sourceFile (.ofText text)).kind = .eof ∧
        (9 * byteSize text + 3 ≤ maxOffset → (sourceFile (.ofText text)).log.events.size ≤ maxOffset ∧
          (sourceFile (.ofText text)).breach? = none ∧ ∃ parse, Parse.ofText? text = .ok parse) := by
  refine ⟨rules_run_loops, fun loop hloop s => ?_, fun family depth outer s hs houter => ?_, fun _ _ => rfl,
    fun text => ?_⟩
  · exact ⟨Loop.ends_run hloop s, fun h => (Loop.advances loop hloop s h).1⟩
  · have hfirst := nested_openFrame hs houter depth
    exact ⟨ends_finishFrames hfirst, fun n hn => nestingTurn_cases (hn.keeps hfirst fun _ _ h => h.turn)⟩
  · obtain ⟨items, l, h⟩ := Reading.exists_lines text
    have hevents : (sourceFile (.ofText text)).log.events.size ≤ 9 * text.length + 3 := Parse.size_events_le h
    have hlength := length_le_byteSize text
    refine ⟨?_, fun hsize => ⟨by omega, ?_, _, Parse.ofText?_eq h (by omega)⟩⟩
    · rw [Reading.sourceFile_emit h]
      exact Reading.stops_of_many h
    · rw [Reading.sourceFile_emit h]
      rfl

/-- A compound string and a local macro reference in it that the line leaves open. -/
theorem loops_end_open :
    let s := Run.ofText "`\"a `b\n".toList
    let first := openFrame .compoundString 1 .statement (s, [])
    s.isAt Family.compoundString.opener = true ∧ Mode.statement ≠ .mataBrace ∧ first.2 ≠ [] ∧
      Loop.arguments.goesOn s = true ∧ s.ahead.offset < (argument s).ahead.offset ∧
      frames.Ends first (compoundString .statement s, []) ∧
      (first.1.ahead.offset < (nestingTurn first).1.ahead.offset ∨
        first.1.atLineEnd = true ∧ (nestingTurn first).2 = first.2.tail ∧ (nestingTurn first).1.ahead = first.1.ahead) ∧
      ∃ parse, Parse.ofText? "`\"a `b\n".toList = .ok parse := by
  obtain ⟨-, hloops, hnested, -, htexts⟩ := loops_end
  have hopener : (Run.ofText "`\"a `b\n".toList).isAt Family.compoundString.opener = true := by decide
  have hgoes : Loop.arguments.goesOn (Run.ofText "`\"a `b\n".toList) = true := by decide
  obtain ⟨hends, hturns⟩ := hnested .compoundString 1 .statement _ hopener (by decide)
  have hmoves := (hloops Loop.arguments (by simp [Loop.ofRules]) _).2 hgoes
  exact ⟨hopener, by decide, by simp [openFrame], hgoes, hmoves, hends,
    hturns _ .refl (by simp [openFrame]), ((htexts _).2 (by decide)).2.2⟩

end Dofile
