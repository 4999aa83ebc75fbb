import Dofile.Text.LineStart
import Dofile.Token.Delimited
import Dofile.Token.Mata
import Dofile.Token.Statement

/-!
# Tokens and the lexer

How a text splits into tokens depends on what it stands in, so whoever reads
names a `Mode` for each token. A `Lexer` is a place in a text together with the
mode of the token ahead. That token is a function of the place, so reading it
again in another mode changes the mode and nothing else.
-/

namespace Dofile

inductive Mode where
  | statement
  | doubleString
  | compoundString
  | localMacro
  | globalMacro
  | mataHead
  | mataLine
  | mataBrace
  deriving DecidableEq

namespace Mode

/-- Whether blanks before a token are set apart from it. Elsewhere they are content. -/
def skipsBlanks : Mode → Bool
  | statement | mataHead | mataLine => true
  | _ => false

def lexeme (mode : Mode) (fresh : Bool) (text : List Char) : Lexeme :=
  match mode with
  | statement => Lexeme.statement fresh text
  | doubleString => Lexeme.doubleString text
  | compoundString => Lexeme.compoundString text
  | localMacro => Lexeme.localMacro text
  | globalMacro => Lexeme.globalMacro text
  | mataHead => Lexeme.mataHead text
  | mataLine => Lexeme.mataLine text
  | mataBrace => Lexeme.mataBrace text

end Mode

/-- A lexeme in its place, with the blanks set apart before it. -/
structure Token where
  /-- The offset of the blanks. -/
  offset : Nat
  leading : List Char
  kind : Kind
  text : List Char
  deriving DecidableEq

namespace Token

def start (t : Token) : Nat := t.offset + byteSize t.leading

def stop (t : Token) : Nat := t.start + byteSize t.text

def span (t : Token) : Span := ⟨t.start, t.stop⟩

def fullText (t : Token) : List Char := t.leading ++ t.text

def read (mode : Mode) (offset : Nat) (fresh : Bool) (text : List Char) : Token :=
  let leading := if mode.skipsBlanks then text.takeWhile isBlank else []
  let lexeme := mode.lexeme fresh (text.drop leading.length)
  ⟨offset, leading, lexeme.kind, lexeme.text⟩

end Token

/-- A place in a text and the mode of the token that begins there. -/
structure Lexer where
  offset : Nat
  /-- Whether the place is at the start of its line. -/
  fresh : Bool
  /-- The text from the place on. -/
  rest : List Char
  mode : Mode
  deriving DecidableEq

namespace Lexer

def ofText (text : List Char) : Lexer := ⟨0, true, text, .statement⟩

def ahead (l : Lexer) : Token := Token.read l.mode l.offset l.fresh l.rest

def after (l : Lexer) : List Char := l.rest.drop l.ahead.fullText.length

def next (l : Lexer) (mode : Mode) : Lexer :=
  ⟨l.ahead.stop, freshAfter l.fresh l.ahead.fullText, l.after, mode⟩

/-- Reads the token ahead, blanks included, again in `mode`. -/
def relex (l : Lexer) (mode : Mode) : Lexer := { l with mode }

/-- The tokens from a place on, all read in one mode, up to the end of the text. At
most `fuel` tokens are read. -/
def tokensFrom (mode : Mode) : Nat → Lexer → List Token
  | 0, _ => []
  | fuel + 1, l =>
    if l.ahead.kind == .eof then [l.ahead] else l.ahead :: tokensFrom mode fuel (l.next mode)

def tokens (mode : Mode) (text : List Char) : List Token :=
  tokensFrom mode (text.length + 1) ((ofText text).relex mode)

end Lexer

end Dofile
