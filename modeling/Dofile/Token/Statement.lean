import Dofile.Token.Lexeme
import Dofile.Text.Span
import Dofile.Word

/-!
# Lexemes of statements

The scanner for ordinary statement text: comments, words, numbers, operators,
brackets and the openers of strings and macro references. Characters that begin
none of these run together into one lexeme of kind `other`.
-/

namespace Dofile.Lexeme

/-- The rest of a block comment: up to the first `*/`, or the whole text. -/
def blockCommentTail : List Char → List Char
  | [] => []
  | '*' :: '/' :: _ => ['*', '/']
  | c :: rest => c :: blockCommentTail rest

/-- Whether a block comment includes its own `*/`, which cannot share the star of
its opening. -/
def isTerminatedBlockComment (text : List Char) : Bool :=
  4 ≤ byteSize text && ['*', '/'].isSuffixOf text

def sign : List Char → List Char
  | '+' :: _ => ['+']
  | '-' :: _ => ['-']
  | _ => []

/-- An exponent: `e` or `E`, a sign or none, and digits. Without digits there is no
exponent. -/
def exponent : List Char → List Char
  | [] => []
  | e :: rest =>
    let power := digits (rest.drop (sign rest).length)
    if (e == 'e' || e == 'E') && !power.isEmpty then e :: sign rest ++ power else []

/-- A number that begins with a digit: digits, a point with or without more digits,
and an exponent. -/
def number (text : List Char) : List Char :=
  let whole := digits text
  match text.drop whole.length with
  | '.' :: rest => whole ++ '.' :: digits rest ++ exponent (rest.drop (digits rest).length)
  | rest => whole ++ exponent rest

/-- What a dot begins: a number if a digit follows, else a missing value, which is
`.` or one of `.a` to `.z`. The text is the one after the dot. -/
def dot (text : List Char) : Lexeme :=
  match text with
  | [] => ⟨.missingValue, ['.']⟩
  | c :: rest =>
    if c.isDigit then
      ⟨.number, '.' :: digits text ++ exponent (text.drop (digits text).length)⟩
    else if c.isLower && !rest.head?.any isWordPart then ⟨.missingValue, ['.', c]⟩
    else ⟨.missingValue, ['.']⟩

def punctuation? : Char → Option Kind
  | '(' => some .leftParen
  | ')' => some .rightParen
  | '[' => some .leftBracket
  | ']' => some .rightBracket
  | '{' => some .leftBrace
  | '}' => some .rightBrace
  | ':' => some .colon
  | ',' => some .comma
  | '#' => some .hash
  | _ => none

def isComparison (c : Char) : Bool := ['=', '!', '~', '<', '>'].contains c

def isArithmetic (c : Char) : Bool := ['+', '-', '*', '/', '^', '&', '|'].contains c

/-- The characters that begin a token of their own and so end a run of others. -/
def beginsToken (c : Char) : Bool :=
  isWordStart c || c.isDigit || ['.', '"', '`', '$'].contains c || (punctuation? c).isSome ||
    isComparison c || isArithmetic c

def otherRun (text : List Char) : List Char :=
  text.takeWhile fun c => !isWhiteSpace c && !beginsToken c

/-- The lexeme at a character of statement text that opens neither a comment with
`/` nor a compound string. -/
def statementFrom (fresh : Bool) (c : Char) (rest : List Char) : Lexeme :=
  if isLineBreak c then lineBreak c rest
  else if c == '*' && fresh then ⟨.starComment, c :: restOfLine rest⟩
  else if c == '"' then ⟨.doubleQuote, [c]⟩
  else if c == '`' then ⟨.backtick, [c]⟩
  else if c == '$' && opensMacro rest then ⟨.dollar, [c]⟩
  else if c.isDigit then ⟨.number, number (c :: rest)⟩
  else if c == '.' then dot rest
  else if isWordStart c then
    let word := c :: restOfWord rest
    ⟨Word.classify word, word⟩
  else if let some kind := punctuation? c then ⟨kind, [c]⟩
  else if isComparison c then ⟨.operator, if rest.head? == some '=' then [c, '='] else [c]⟩
  else if isArithmetic c then ⟨.operator, [c]⟩
  else if isWhiteSpace c then ⟨.unknown, [c]⟩
  else ⟨.other, c :: otherRun rest⟩

/-- The lexeme at the beginning of statement text. `fresh` tells whether it stands at
the start of its line. -/
def statement (fresh : Bool) : List Char → Lexeme
  | [] => endOfText
  | '/' :: '/' :: rest =>
    ⟨if rest.head? == some '/' then .continuationComment else .lineComment,
      '/' :: '/' :: restOfLine rest⟩
  | '/' :: '*' :: rest => ⟨.blockComment, '/' :: '*' :: blockCommentTail rest⟩
  | '`' :: '"' :: _ => ⟨.compoundOpen, ['`', '"']⟩
  | c :: rest => statementFrom fresh c rest

end Dofile.Lexeme
