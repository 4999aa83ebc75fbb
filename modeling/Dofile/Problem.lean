import Dofile.Text.Span

/-!
# Problems and diagnostics

A problem is what can be wrong with a do-file. A finding is a problem at a span
of the text. A diagnostic is what a reader is told of it: a category, a message
and the span.
-/

namespace Dofile

inductive Category where
  /-- A character that begins no token. -/
  | lexical
  /-- A string, macro reference, comment or block without its end. -/
  | unterminated
  /-- A statement that is out of place or incomplete. -/
  | structural
  deriving DecidableEq

def Category.code : Category → String
  | lexical => "lex"
  | unterminated => "unterminated"
  | structural => "structure"

inductive Problem where
  | unexpectedCharacter
  | unterminatedBlockComment
  | unterminatedString
  | unterminatedCompoundString
  | unterminatedLocalMacro
  | unterminatedGlobalMacro
  | missingMataBrace
  | missingMataEnd
  | missingProgramEnd
  | strayEnd
  | expectedEndOfLine
  | expectedCommandName
  | expectedProgramName
  | expectedMacroName
  | expectedGlobalMacroName
  | expectedSomeName
  deriving DecidableEq

namespace Problem

def category : Problem → Category
  | unexpectedCharacter => .lexical
  | unterminatedBlockComment | unterminatedString | unterminatedCompoundString
  | unterminatedLocalMacro | unterminatedGlobalMacro | missingMataBrace => .unterminated
  | _ => .structural

def message : Problem → String
  | unexpectedCharacter => "unexpected character"
  | unterminatedBlockComment => "unterminated block comment"
  | unterminatedString => "unterminated string"
  | unterminatedCompoundString => "unterminated compound string"
  | unterminatedLocalMacro => "unterminated local macro"
  | unterminatedGlobalMacro => "unterminated `$\x7b`"
  | missingMataBrace => "missing `\x7d` for mata"
  | missingMataEnd => "missing `end` for mata"
  | missingProgramEnd => "missing `end` for program"
  | strayEnd => "`end` without an open program"
  | expectedEndOfLine => "expected end of line"
  | expectedCommandName => "expected a command name"
  | expectedProgramName => "expected a program name"
  | expectedMacroName => "expected a macro name"
  | expectedGlobalMacroName => "expected a global macro name"
  | expectedSomeName => "expected at least one name"

end Problem

structure Finding where
  problem : Problem
  span : Span
  deriving DecidableEq

structure Diagnostic where
  category : Category
  message : String
  span : Span
  deriving DecidableEq

def Finding.diagnostic (f : Finding) : Diagnostic := ⟨f.problem.category, f.problem.message, f.span⟩

def Diagnostic.summary (d : Diagnostic) : String :=
  s!"{d.span.render} {d.category.code}: {d.message}"

end Dofile
