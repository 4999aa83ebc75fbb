import Dofile.Tree.Place

/-!
# Highlighting

Editors colour text by captures. The capture of a leaf is decided by its kind and
by what it stands in, and neighbours of one capture form one range.
-/

namespace Dofile

inductive Capture where
  | comment
  | string
  | compoundString (depth : Nat)
  | localMacro (depth : Nat)
  | globalMacro
  | storageType
  | keyword
  | number
  | builtin
  | operator
  /-- The name of a command or program. -/
  | function
  deriving DecidableEq

namespace Capture

def name : Capture → String
  | comment => "comment"
  | string => "string"
  | compoundString depth => s!"string.depth.{(Kind.depthLabel depth).val + 1}"
  | localMacro depth => s!"variable.macro.local.depth.{(Kind.depthLabel depth).val + 1}"
  | globalMacro => "variable"
  | storageType => "type"
  | keyword => "keyword"
  | number => "number"
  | builtin => "constant.builtin"
  | operator => "operator"
  | function => "function"

def ofDelimited? : Kind → Option Capture
  | .doubleString => some string
  | .globalMacro => some globalMacro
  | .compoundString label => some (compoundString (label + 1))
  | .localMacro label => some (localMacro (label + 1))
  | _ => none

/-- The capture of a leaf that stands in no string or macro reference, from its kind
and those of its ancestors. Of the names, only those of commands and programs
are functions. -/
def ofPlain? (k : Kind) (ancestors : List Kind) : Option Capture :=
  if k == .typeKeyword then some storageType
  else if k.isKeyword then some keyword
  else match k, ancestors with
    | .number, _ | .missingValue, _ => some number
    | .builtinVariable, _ => some builtin
    | .operator, _ => some operator
    | .ident, .name :: .command :: _ | .ident, .name :: .programDefinition :: _ => some function
    | _, _ => none

def ofKinds? (k : Kind) (ancestors : List Kind) : Option Capture :=
  if k.isComment then some comment
  else match k with
    | .whitespace | .newline | .eof | .mataContent => none
    | _ => (ancestors.findSome? ofDelimited?).or (ofPlain? k ancestors)

end Capture

structure Highlight where
  span : Span
  capture : Capture
  deriving DecidableEq

namespace Highlight

def ofLeaf? (p : Place) : Option Highlight :=
  (Capture.ofKinds? p.kind p.parentKinds).map fun capture => ⟨p.span, capture⟩

/-- Joins ranges of one capture that touch, where `current` is the range before the
given ones. -/
def joinFrom (current : Highlight) : List Highlight → List Highlight
  | [] => [current]
  | next :: rest =>
    if current.capture = next.capture ∧ current.span.stop = next.span.start then
      joinFrom ⟨⟨current.span.start, next.span.stop⟩, current.capture⟩ rest
    else current :: joinFrom next rest

def join : List Highlight → List Highlight
  | [] => []
  | first :: rest => joinFrom first rest

def ofTree (t : Tree) : List Highlight := join ((Place.ofRoot t).leaves.filterMap ofLeaf?)

end Highlight

end Dofile
