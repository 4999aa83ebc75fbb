import Dofile.Grammar.Nesting

/-!
# Names and arguments

What follows a statement's keyword is a list of free-form arguments up to the end
of the line: tokens, strings and macro references. A name is any word, stored as
an identifier in a node of its own.
-/

namespace Dofile.Grammar

def word (s : Run) : Run := s.node .name (·.takeAs .ident .statement)

/-- A name. If no word is ahead this is reported, and nothing is taken. -/
def name (problem : Problem) (s : Run) : Run := if s.atWord then word s else s.report problem

def argument (s : Run) : Run :=
  if s.isAt .doubleQuote then doubleString .statement s
  else if s.isAt .compoundOpen then compoundString .statement s
  else if s.isAt .backtick then localMacro .statement s
  else if s.isAt .dollar then globalMacro .statement s
  else if s.isAt .blockComment && !Lexeme.isTerminatedBlockComment s.ahead.text then
    s.takeInError .unterminatedBlockComment
  else if s.isAt .unknown then s.takeInError .unexpectedCharacter
  else s.take

def arguments (s : Run) : Run := s.repeatWhile (!·.atLineEnd) argument

def atTrailingComment (s : Run) : Bool :=
  s.isAt .lineComment || s.isAt .continuationComment || s.isAt .blockComment

def trailingComments (s : Run) : Run := s.repeatWhile atTrailingComment argument

/-- The rest of a line: comments, and a problem node for anything else before the line
break. -/
def endOfLine (s : Run) : Run :=
  let s := trailingComments s
  let s :=
    if s.atLineEnd then s
    else s.node .error fun s => arguments (s.report .expectedEndOfLine)
  s.eat .newline

end Dofile.Grammar
