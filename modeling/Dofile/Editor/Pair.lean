import Dofile.Tree.Place

/-!
# Delimiter pairs

Brackets are paired by kind across lines, so that the brace at the end of a loop's
head finds the one that closes the loop. A bracket that closes nothing is passed
over. Strings and macro references pair their own delimiters.
-/

namespace Dofile

structure Pair where
  opener : Span
  closer : Span
  deriving DecidableEq

namespace Pair

def partner? (pair : Pair) (span : Span) : Option Span :=
  if span = pair.opener then some pair.closer
  else if span = pair.closer then some pair.opener
  else none

/-! ## Brackets -/

def closing? : Kind → Option Kind
  | .leftParen => some .rightParen
  | .leftBracket => some .rightBracket
  | .leftBrace => some .rightBrace
  | _ => none

def isClosing : Kind → Bool
  | .rightParen | .rightBracket | .rightBrace => true
  | _ => false

/-- Pairs the brackets among leaves. `pending` holds the open brackets, the last one
first, each with the kind that closes it. A closing bracket closes the last open
one of its kind and gives up those opened since. -/
def brackets (pending : List (Kind × Span)) : List Place → List Pair
  | [] => []
  | leaf :: leaves =>
    match closing? leaf.kind with
    | some closer => brackets ((closer, leaf.span) :: pending) leaves
    | none =>
      if isClosing leaf.kind then
        match pending.dropWhile (·.1 != leaf.kind) with
        | [] => brackets pending leaves
        | (_, opener) :: pending => ⟨opener, leaf.span⟩ :: brackets pending leaves
      else brackets pending leaves

/-! ## Strings and macro references -/

def delimiters? : Kind → Option (Kind × Kind)
  | .doubleString => some (.doubleQuote, .doubleQuote)
  | .localMacro _ => some (.backtick, .quote)
  | .compoundString _ => some (.compoundOpen, .compoundClose)
  | _ => none

def ofNode? (p : Place) : Option Pair :=
  match delimiters? p.kind, p.leaves with
  | some (opener, closer), first :: second :: rest =>
    let last := (second :: rest).getLast (by simp)
    if first.kind = opener ∧ last.kind = closer then some ⟨first.span, last.span⟩ else none
  | _, _ => none

def ofTree (t : Tree) : List Pair :=
  let root := Place.ofRoot t
  (brackets [] root.leaves ++ root.nodes.filterMap ofNode?).mergeSort
    fun a b => a.opener.start ≤ b.opener.start

def partnerIn? (pairs : List Pair) (span : Span) : Option Span := pairs.findSome? (·.partner? span)

/-! ## The delimiter under a cursor -/

def isDelimiter : Kind → Bool
  | .leftParen | .rightParen | .leftBracket | .rightBracket | .leftBrace | .rightBrace
  | .doubleQuote | .backtick | .quote | .compoundOpen | .compoundClose => true
  | _ => false

/-- The partner of the delimiter at an offset. Between two leaves a delimiter is
preferred, and of two the right one. -/
def matching? (t : Tree) (offset : Nat) : Option Span := do
  let leaf ← ((Place.ofRoot t).leavesAt offset).best? fun k => if isDelimiter k then 1 else 0
  partnerIn? (ofTree t) leaf.span

end Pair

end Dofile
