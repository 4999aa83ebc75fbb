import Dofile.Grammar.Mata

/-!
# Statements

A do-file is a list of lines, and a line holds a statement, with block comments
before it. The words that begin definitions, blocks and prefixed commands are
keywords only there. Programs hold lines in turn: their rule takes the rule for
those lines as a parameter, and `line` ties the knot for as many programs within
programs as the text can hold.
-/

namespace Dofile.Grammar

def programWords : List String := ["program", "prog", "progr", "progra"]

def programSubcommands : List String := ["drop", "dir", "list"]

def localWords : List String := ["local", "loc"]

def globalWords : List String := ["global", "gl"]

def temporaryWords : List String := ["tempvar", "tempname", "tempfile"]

def prefixWords : List String :=
  ["by", "bysort", "bys", "quietly", "qui", "noisily", "noi", "capture", "cap", "sortpreserve"]

/-! ## Simple statements -/

def atComment (s : Run) : Bool := s.kind.isComment

def comment (s : Run) : Run := s.node .comment argument

def blockClose (s : Run) : Run := s.node .blockClose fun s => arguments s.take

def macroDefinition (s : Run) : Run :=
  s.node .macroDefinition fun s =>
    let keyword := if s.atWordOf localWords then .localKeyword else .globalKeyword
    arguments (name .expectedMacroName (s.takeAs keyword .statement))

def temporaryDefinition (s : Run) : Run :=
  s.node .macroDefinition fun s =>
    let s := s.takeAs .tempKeyword .statement
    let s := if s.atWord then s else s.report .expectedSomeName
    trailingComments (s.repeatWhile Run.atWord word)

def strayEnd (s : Run) : Run :=
  s.node .error fun s =>
    trailingComments ((s.report .strayEnd).takeAs .endKeyword .statement)

/-! ## Commands -/

/-- Whether a command follows a word that can be its prefix: a word comes next, with at
most a colon between. Otherwise the word is the command itself. -/
def prefixApplies (after : List Char) : Bool :=
  let rest := after.dropWhile isBlank
  let rest := if rest.head? == some ':' then rest.tail.dropWhile isBlank else rest
  rest.head?.any isWordStart

def commandPrefix (s : Run) : Run :=
  s.node .commandPrefix fun s => (s.takeAs .prefixKeyword .statement).eat .colon

def atPrefix (s : Run) : Bool := s.atWordOf prefixWords && prefixApplies s.textAfter

def commandHead (s : Run) : Run :=
  if s.atWord then word s
  else if s.isAt .unknown then argument s
  else s.node .error fun s => argument (s.report .expectedCommandName)

def command (s : Run) : Run :=
  s.node .command fun s => arguments (commandHead (s.repeatWhile atPrefix commandPrefix))

/-! ## Programs and lines -/

def atProgramSubcommand (after : List Char) : Bool :=
  Word.isOneOf programSubcommands ((after.dropWhile isBlank).takeWhile isWordPart)

def programDefinition (line : Run → Run) (s : Run) : Run :=
  let mark := s.mark
  let opener := s.ahead.span
  let s := s.start.takeAs .programKeyword .statement
  let s := if s.atWordOf ["define"] then s.takeAs .defineKeyword .statement else s
  let s := arguments (name .expectedProgramName s)
  let s := s.repeatWhile (fun s => !s.isAt .eof && !s.atWordOf ["end"]) line
  if s.isAt .eof then
    (s.reportAt .missingProgramEnd opener).closeInError mark .programDefinition
  else (trailingComments (s.takeAs .endKeyword .statement)).close mark .programDefinition

/-- A statement, where `line` reads the lines of a program. -/
def statement (line : Run → Run) (s : Run) : Run :=
  if atComment s then comment s
  else if s.isAt .rightBrace then blockClose s
  else if s.atWordOf programWords && !atProgramSubcommand s.textAfter then programDefinition line s
  else if s.atWordOf ["mata"] then mataBlock s
  else if s.atWordOf localWords || s.atWordOf globalWords then macroDefinition s
  else if s.atWordOf temporaryWords then temporaryDefinition s
  else if s.atWordOf ["end"] then strayEnd s
  else command s

/-- A line, where `line` reads the lines of a program: an empty one, or block comments
and a statement. -/
def lineWith (line : Run → Run) (s : Run) : Run :=
  if s.isAt .newline then s.take
  else
    let s := s.repeatWhile (·.isAt .blockComment) comment
    endOfLine (if s.atLineEnd then s else statement line s)

/-- A line with at most `depth` programs within programs. -/
def line : Nat → Run → Run
  | 0 => id
  | depth + 1 => lineWith (line depth)

/-- A whole do-file. There are fewer programs within programs than characters. -/
def sourceFile (s : Run) : Run :=
  s.node .sourceFile fun s =>
    (s.repeatWhile (!·.isAt .eof) (line s.rest.length)).takeEnd

end Dofile.Grammar
