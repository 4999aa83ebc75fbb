import Dofile.Token.Lexeme

/-!
# Lexemes inside strings and macro references

Each kind of string and macro reference has a lexical context of its own. In
all of them blanks are content, and a line break is never part of the text.
-/

namespace Dofile.Lexeme

/-- The lexeme inside `"…"`. A backslash takes the next character with it, and two
quotes stand for one. -/
def doubleString : List Char → Lexeme
  | [] => endOfText
  | '"' :: '"' :: _ => ⟨.escapedQuote, ['"', '"']⟩
  | c :: rest =>
    if isLineBreak c then lineBreak c rest
    else if c == '"' then ⟨.doubleQuote, [c]⟩
    else if c == '$' && opensMacro rest then ⟨.dollar, [c]⟩
    else match c, rest with
      | '\\', next :: _ =>
        if isLineBreak next then
          ⟨.stringText, c :: textRun (fun c => c == '"' || c == '\\') rest⟩
        else ⟨.stringEscape, [c, next]⟩
      | _, _ => ⟨.stringText, c :: textRun (fun c => c == '"' || c == '\\') rest⟩

def compoundString : List Char → Lexeme
  | [] => endOfText
  | '`' :: '"' :: _ => ⟨.compoundOpen, ['`', '"']⟩
  | '"' :: '\'' :: _ => ⟨.compoundClose, ['"', '\'']⟩
  | c :: rest =>
    if isLineBreak c then lineBreak c rest
    else if c == '`' then ⟨.backtick, [c]⟩
    else if c == '"' then ⟨.doubleQuote, [c]⟩
    else if c == '$' && opensMacro rest then ⟨.dollar, [c]⟩
    else ⟨.compoundText, c :: textRun (fun c => c == '`' || c == '"') rest⟩

def endsMacroText (c : Char) : Bool :=
  c == '`' || c == '\'' || c == '"' || isWordStart c || c.isDigit

def localMacro : List Char → Lexeme
  | [] => endOfText
  | c :: rest =>
    if isLineBreak c then lineBreak c rest
    else if c == '`' then ⟨.backtick, [c]⟩
    else if c == '\'' then ⟨.quote, [c]⟩
    else if c == '"' then ⟨.doubleQuote, [c]⟩
    else if c == '$' && opensMacro rest then ⟨.dollar, [c]⟩
    else if isWordStart c then ⟨.ident, c :: restOfWord rest⟩
    else if c.isDigit then ⟨.number, c :: digits rest⟩
    else ⟨.macroText, c :: textRun endsMacroText rest⟩

/-- The lexeme after the `$` of a global macro reference: a name, a brace, or any
other single character. -/
def globalMacro : List Char → Lexeme
  | [] => endOfText
  | c :: rest =>
    if isLineBreak c then lineBreak c rest
    else if c == '{' then ⟨.leftBrace, [c]⟩
    else if c == '}' then ⟨.rightBrace, [c]⟩
    else if isWordStart c then ⟨.ident, c :: restOfWord rest⟩
    else ⟨.other, [c]⟩

end Dofile.Lexeme
