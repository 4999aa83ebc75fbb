import Dofile.Kind.Set
import Dofile.Text.Classes

/-!
# Words

A word is a run of word characters. `Word.classify` sorts a complete word into
built-in variables, control words, storage types and plain identifiers, and
`Word.kinds` is the set of the four classes.
-/

namespace Dofile.Word

def builtinVariables : List String :=
  ["_n", "_N", "_b", "_coef", "_cons", "_rc", "_se", "_pi", "_skip", "_dup", "_newline",
    "_column", "_continue", "_request", "_char"]

def controlWords : List String :=
  ["if", "else", "foreach", "forvalues", "forv", "while", "continue", "break", "end"]

def storageTypes : List String := ["byte", "int", "long", "float", "double", "strL"]

def maxStringWidth : Nat := 2045

def isOneOf (words : List String) (text : List Char) : Bool := words.contains (String.ofList text)

def digitsValue (digits : List Char) : Nat :=
  digits.foldl (fun n c => 10 * n + (c.toNat - '0'.toNat)) 0

/-- `str1` to `str2045`: `str` and a width without leading zeros. -/
def isSizedString : List Char → Bool
  | 's' :: 't' :: 'r' :: width =>
    match width with
    | [] => false
    | first :: _ => first != '0' && width.all Char.isDigit && digitsValue width ≤ maxStringWidth
  | _ => false

def classify (text : List Char) : Kind :=
  if isOneOf builtinVariables text then .builtinVariable
  else if isOneOf controlWords text then .controlKeyword
  else if isOneOf storageTypes text || isSizedString text then .typeKeyword
  else .ident

/-- The kinds of the tokens that are words. A statement's keyword or a name may be
any of them. -/
def kinds : Kind.Set := .ofList [.ident, .builtinVariable, .controlKeyword, .typeKeyword]

end Dofile.Word
