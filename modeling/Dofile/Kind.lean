/-!
# Kinds

The label of every leaf and node of a syntax tree. Leaf kinds come first, then
the keywords that are words only in their place, then the kinds of nodes. The
order is part of the interface: a kind's `index` is its place in `Kind.all`.
-/

namespace Dofile

/-- Compound strings and local macro references carry their nesting depth, which
is counted in a cycle of this many labels. -/
def depthCycle : Nat := 6

inductive Kind where
  | whitespace
  | newline
  | lineComment
  | continuationComment
  | starComment
  | blockComment
  | doubleQuote
  | escapedQuote
  | stringEscape
  | stringText
  | compoundOpen
  | compoundClose
  | compoundText
  | backtick
  | quote
  | macroText
  | dollar
  | number
  | missingValue
  | builtinVariable
  | controlKeyword
  | typeKeyword
  | ident
  | operator
  | hash
  | leftParen
  | rightParen
  | leftBracket
  | rightBracket
  | leftBrace
  | rightBrace
  | colon
  | comma
  | other
  | mataContent
  | unknown
  | eof
  | programKeyword
  | defineKeyword
  | endKeyword
  | mataKeyword
  | localKeyword
  | globalKeyword
  | tempKeyword
  | prefixKeyword
  | sourceFile
  | comment
  | programDefinition
  | mataBlock
  | macroDefinition
  | command
  | commandPrefix
  | name
  | blockClose
  | doubleString
  | compoundString (label : Fin depthCycle)
  | localMacro (label : Fin depthCycle)
  | globalMacro
  | error
  | tombstone
  deriving DecidableEq, Inhabited

namespace Kind

def all : List Kind :=
  [whitespace, newline, lineComment, continuationComment, starComment, blockComment,
    doubleQuote, escapedQuote, stringEscape, stringText, compoundOpen, compoundClose, compoundText,
    backtick, quote, macroText, dollar,
    number, missingValue, builtinVariable, controlKeyword, typeKeyword, ident,
    operator, hash, leftParen, rightParen, leftBracket, rightBracket, leftBrace, rightBrace,
    colon, comma, other, mataContent, unknown, eof,
    programKeyword, defineKeyword, endKeyword, mataKeyword, localKeyword, globalKeyword,
    tempKeyword, prefixKeyword,
    sourceFile, comment, programDefinition, mataBlock, macroDefinition, command, commandPrefix,
    name, blockClose, doubleString] ++
  (List.finRange depthCycle).map compoundString ++
  (List.finRange depthCycle).map localMacro ++
  [globalMacro, error, tombstone]

def index (k : Kind) : Nat := all.idxOf k

def ofIndex? (i : Nat) : Option Kind := all[i]?

theorem mem_all (k : Kind) : k ∈ all := by
  cases k with
  | compoundString label => simp [all]
  | localMacro label => simp [all]
  | _ => decide

theorem ofIndex?_index (k : Kind) : ofIndex? k.index = some k := by
  have h := List.idxOf_lt_length_of_mem (mem_all k)
  rw [index, ofIndex?, List.getElem?_eq_getElem h, Option.some.injEq]
  exact beq_iff_eq.1 (@List.findIdx_getElem _ (· == k) all h)

theorem index_lt (k : Kind) : k.index < 70 := List.idxOf_lt_length_of_mem (mem_all k)

theorem index_injective {a b : Kind} (h : a.index = b.index) : a = b := by
  have := ofIndex?_index a
  rw [h, ofIndex?_index b] at this
  exact (Option.some.inj this).symm

/-- The depth label of nesting level `depth`. Levels count from 1, and a level 0 is
taken for the first. -/
def depthLabel (depth : Nat) : Fin depthCycle :=
  ⟨(depth - 1) % depthCycle, Nat.mod_lt _ (by decide)⟩

def compoundStringAt (depth : Nat) : Kind := compoundString (depthLabel depth)

def localMacroAt (depth : Nat) : Kind := localMacro (depthLabel depth)

def depth? : Kind → Option Nat
  | compoundString label | localMacro label => some (label + 1)
  | _ => none

def isCompoundString : Kind → Bool
  | compoundString _ => true
  | _ => false

def isLocalMacro : Kind → Bool
  | localMacro _ => true
  | _ => false

/-- Blanks between tokens carry no meaning. -/
def isTrivia (k : Kind) : Bool := k == whitespace

def isComment : Kind → Bool
  | lineComment | continuationComment | starComment | blockComment => true
  | _ => false

def isKeyword : Kind → Bool
  | controlKeyword | programKeyword | defineKeyword | endKeyword | mataKeyword | localKeyword
  | globalKeyword | tempKeyword | prefixKeyword => true
  | _ => false

/-- Whether a kind labels nodes. All others label leaves. -/
def isNode (k : Kind) : Bool := sourceFile.index ≤ k.index

theorem isNode_error : isNode error = true := rfl

def tag : Kind → String
  | whitespace => "WHITESPACE"
  | newline => "NEWLINE"
  | lineComment => "LINE_COMMENT"
  | continuationComment => "CONTINUATION_COMMENT"
  | starComment => "STAR_COMMENT"
  | blockComment => "BLOCK_COMMENT"
  | doubleQuote => "DQUOTE"
  | escapedQuote => "ESCAPED_QUOTE"
  | stringEscape => "STRING_ESCAPE"
  | stringText => "STRING_TEXT"
  | compoundOpen => "COMPOUND_OPEN"
  | compoundClose => "COMPOUND_CLOSE"
  | compoundText => "COMPOUND_TEXT"
  | backtick => "BACKTICK"
  | quote => "QUOTE"
  | macroText => "MACRO_TEXT"
  | dollar => "DOLLAR"
  | number => "NUMBER"
  | missingValue => "MISSING_VALUE"
  | builtinVariable => "BUILTIN_VARIABLE"
  | controlKeyword => "CONTROL_KEYWORD"
  | typeKeyword => "TYPE_KEYWORD"
  | ident => "IDENT"
  | operator => "OPERATOR"
  | hash => "HASH"
  | leftParen => "LEFT_PAREN"
  | rightParen => "RIGHT_PAREN"
  | leftBracket => "LEFT_BRACKET"
  | rightBracket => "RIGHT_BRACKET"
  | leftBrace => "LEFT_BRACE"
  | rightBrace => "RIGHT_BRACE"
  | colon => "COLON"
  | comma => "COMMA"
  | other => "OTHER"
  | mataContent => "MATA_CONTENT"
  | unknown => "UNKNOWN"
  | eof => "EOF"
  | programKeyword => "PROGRAM_KW"
  | defineKeyword => "DEFINE_KW"
  | endKeyword => "END_KW"
  | mataKeyword => "MATA_KW"
  | localKeyword => "LOCAL_KW"
  | globalKeyword => "GLOBAL_KW"
  | tempKeyword => "TEMP_KW"
  | prefixKeyword => "PREFIX_KW"
  | sourceFile => "SOURCE_FILE"
  | comment => "COMMENT"
  | programDefinition => "PROGRAM_DEFINITION"
  | mataBlock => "MATA_BLOCK"
  | macroDefinition => "MACRO_DEFINITION"
  | command => "COMMAND"
  | commandPrefix => "PREFIX"
  | name => "NAME"
  | blockClose => "BLOCK_CLOSE"
  | doubleString => "DOUBLE_STRING"
  | compoundString label => s!"COMPOUND_STRING_DEPTH_{label.val + 1}"
  | localMacro label => s!"LOCAL_MACRO_DEPTH_{label.val + 1}"
  | globalMacro => "GLOBAL_MACRO"
  | error => "ERROR"
  | tombstone => "TOMBSTONE"

def ofTag? (tag : String) : Option Kind := all.find? (·.tag == tag)

/-- The name of a kind for readers: its tag in small letters, with the words
`identifier` and `keyword` written out. Problem nodes keep their capitals. -/
def title : Kind → String
  | ident => "identifier"
  | programKeyword => "program_keyword"
  | defineKeyword => "define_keyword"
  | endKeyword => "end_keyword"
  | mataKeyword => "mata_keyword"
  | localKeyword => "local_keyword"
  | globalKeyword => "global_keyword"
  | tempKeyword => "temp_keyword"
  | prefixKeyword => "prefix_keyword"
  | error => "ERROR"
  | k => k.tag.toLower

end Kind

end Dofile
