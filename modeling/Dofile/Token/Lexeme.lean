import Dofile.Kind
import Dofile.Text.Classes

/-!
# Lexemes

A lexeme is a kind and the beginning of the text that it labels. The scanners
of all modes return one. Here stand the pieces that several of them share.
-/

namespace Dofile

structure Lexeme where
  kind : Kind
  text : List Char
  deriving DecidableEq

namespace Lexeme

def endOfText : Lexeme := ⟨.eof, []⟩

/-- A line's end, where a carriage return and a line feed count as one. -/
def lineBreak (first : Char) (rest : List Char) : Lexeme :=
  ⟨.newline, if first == '\r' && rest.head? == some '\n' then [first, '\n'] else [first]⟩

def restOfLine (text : List Char) : List Char := text.takeWhile (!isLineBreak ·)

def restOfWord (text : List Char) : List Char := text.takeWhile isWordPart

def digits (text : List Char) : List Char := text.takeWhile Char.isDigit

/-- A `$` opens a macro reference only before a name or a brace. The text is the
one after the `$`. -/
def opensMacro (text : List Char) : Bool := text.head?.any fun c => isWordStart c || c == '{'

/-- Plain text up to a line break, a `$` that opens a macro reference or a character
that has a meaning of its own here. -/
def textRun (stop : Char → Bool) : List Char → List Char
  | [] => []
  | c :: rest =>
    if isLineBreak c || stop c || (c == '$' && opensMacro rest) then []
    else c :: textRun stop rest

theorem textRun_isPrefix (stop : Char → Bool) (text : List Char) : textRun stop text <+: text := by
  induction text with
  | nil => exact List.nil_prefix
  | cons c rest ih =>
    simp only [textRun]
    split
    · exact List.nil_prefix
    · exact List.cons_prefix_cons.2 ⟨rfl, ih⟩

end Lexeme

end Dofile
