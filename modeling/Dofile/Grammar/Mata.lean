import Dofile.Grammar.Argument

/-!
# Mata blocks

A mata block is one of three: braces with everything up to the matching brace,
lines up to an `end`, or the rest of the keyword's line. Its content is opaque.
-/

namespace Dofile.Grammar

def mataBraces (mark : Nat) (opener : Span) (s : Run) : Run :=
  let s := s.takeIn .mataBrace
  let s := if s.isAt .mataContent then s.takeIn .mataBrace else s
  if s.isAt .rightBrace then s.take.close mark .mataBlock
  else unterminated s mark .mataBlock opener .missingMataBrace .statement

/-- The block of several lines, from the end of the keyword's line on. -/
def mataLines (mark : Nat) (opener : Span) (s : Run) : Run :=
  let s := s.repeatWhile (fun s => !s.isAt .eof && !s.isAt .controlKeyword) (·.takeIn .mataLine)
  if s.isAt .eof then (s.reportAt .missingMataEnd opener).closeInError mark .mataBlock
  else (trailingComments (s.takeAs .endKeyword .statement)).close mark .mataBlock

def mataBlock (s : Run) : Run :=
  let mark := s.mark
  let opener := s.ahead.span
  let s := s.start.takeAs .mataKeyword .mataHead
  let s := if s.isAt .colon then s.takeIn .mataHead else s
  if s.isAt .leftBrace then mataBraces mark opener s
  else if s.atLineEnd then mataLines mark opener s
  else s.take.close mark .mataBlock

end Dofile.Grammar
