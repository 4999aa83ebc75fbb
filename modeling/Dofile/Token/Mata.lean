import Dofile.Token.Lexeme

/-!
# Lexemes of mata blocks

The text of a mata block is another language, which stays opaque. Its three
contexts find only the head of the block and the place where the block ends.
-/

namespace Dofile.Lexeme

def mataHead : List Char → Lexeme
  | [] => endOfText
  | c :: rest =>
    if isLineBreak c then lineBreak c rest
    else if c == ':' then ⟨.colon, [c]⟩
    else if c == '{' then ⟨.leftBrace, [c]⟩
    else ⟨.mataContent, c :: restOfLine rest⟩

def closesLine (text : List Char) : Bool :=
  match text.dropWhile isBlank with
  | [] => true
  | '/' :: '/' :: _ => true
  | '/' :: '*' :: _ => true
  | c :: _ => isLineBreak c

/-- A line of a block of several lines: its closing `end` or opaque content. -/
def mataLine (text : List Char) : Lexeme :=
  match text with
  | [] => endOfText
  | c :: rest =>
    if ['e', 'n', 'd'].isPrefixOf text && closesLine (text.drop 3) then
      ⟨.controlKeyword, ['e', 'n', 'd']⟩
    else if isLineBreak c then lineBreak c rest
    else ⟨.mataContent, c :: restOfLine rest⟩

/-- The text before the brace that closes the `depth` inner braces still open and the
block itself. -/
def braceContent : Nat → List Char → List Char
  | _, [] => []
  | 0, '}' :: _ => []
  | depth + 1, '}' :: rest => '}' :: braceContent depth rest
  | depth, c :: rest => c :: braceContent (if c == '{' then depth + 1 else depth) rest

def mataBrace : List Char → Lexeme
  | [] => endOfText
  | '}' :: _ => ⟨.rightBrace, ['}']⟩
  | text => ⟨.mataContent, braceContent 0 text⟩

end Dofile.Lexeme
