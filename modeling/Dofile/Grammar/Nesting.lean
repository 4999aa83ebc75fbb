import Dofile.Grammar.Run

/-!
# Strings and macro references

Compound strings and local macro references nest in each other without bound.
Their open delimiters stand on a stack of frames, each with its family, its depth
and the mode to go on in once it is closed. Nothing of this leaves its line: at a
line's end every open construct is given up, the innermost first, which reports
it and makes it a problem node.
-/

namespace Dofile

inductive Family where
  | localMacro
  | compoundString
  deriving DecidableEq

namespace Family

def opener : Family → Kind
  | localMacro => .backtick
  | compoundString => .compoundOpen

def closer : Family → Kind
  | localMacro => .quote
  | compoundString => .compoundClose

def mode : Family → Mode
  | localMacro => .localMacro
  | compoundString => .compoundString

def kindAt : Family → Nat → Kind
  | localMacro, depth => .localMacroAt depth
  | compoundString, depth => .compoundStringAt depth

def problem : Family → Problem
  | localMacro => .unterminatedLocalMacro
  | compoundString => .unterminatedCompoundString

/-- The depth of a local macro reference inside a construct of a family at a depth.
Inside a compound string it counts anew. -/
def innerMacroDepth : Family → Nat → Nat
  | localMacro, depth => depth + 1
  | compoundString, _ => 1

end Family

structure Frame where
  family : Family
  depth : Nat
  /-- The span of the opening delimiter. -/
  opener : Span
  /-- The mark of the node. -/
  mark : Nat
  /-- The mode to go on in behind the construct. -/
  outer : Mode
  deriving DecidableEq

namespace Grammar

/-- Closes a construct that ran into the end of its line. The token ahead is read again
in the mode that holds outside, and the node becomes a problem node. -/
def unterminated (s : Run) (mark : Nat) (kind : Kind) (span : Span) (problem : Problem)
    (outer : Mode) : Run :=
  ((s.reportAt problem span).relex outer).closeInError mark kind

/-- A global macro reference, `$name` or `$` and a name in braces. -/
def globalMacro (outer : Mode) (s : Run) : Run :=
  let s := s.expect .dollar
  let mark := s.mark
  let opener := s.ahead.start
  let s := s.start.takeIn .globalMacro
  if s.isAt .ident then (s.takeIn outer).close mark .globalMacro
  else if s.isAt .leftBrace then
    let s := s.takeIn .globalMacro
    let named := s.isAt .ident
    let empty := s.isAt .rightBrace
    let s :=
      if named then s.takeIn .globalMacro
      else if empty then s.report .expectedGlobalMacroName
      else s
    if s.isAt .rightBrace then (s.takeIn outer).close mark .globalMacro
    else
      unterminated s mark .globalMacro ⟨opener, s.ahead.start⟩ .unterminatedGlobalMacro outer
  else ((s.report .expectedGlobalMacroName).relex outer).closeInError mark .globalMacro

def stringItem (s : Run) : Run :=
  if s.isAt .dollar then globalMacro .doubleString s else s.takeIn .doubleString

def doubleString (outer : Mode) (s : Run) : Run :=
  let s := s.expect .doubleQuote
  let mark := s.mark
  let opener := s.ahead.span
  let s := s.start.takeIn .doubleString
  let s := s.repeatWhile (fun s => !s.isAt .doubleQuote && !s.atLineEnd) stringItem
  if s.isAt .doubleQuote then (s.takeIn outer).close mark .doubleString
  else unterminated s mark .doubleString opener .unterminatedString outer

/-- A run in the middle of nested constructs, with the open ones, innermost first. -/
abbrev Nesting := Run × List Frame

def openFrame (family : Family) (depth : Nat) (outer : Mode) : Nesting → Nesting
  | (s, frames) =>
    let s := s.expect family.opener
    let frame := ⟨family, depth, s.ahead.span, s.mark, outer⟩
    (s.start.takeIn family.mode, frame :: frames)

def closeFrame (s : Run) (frame : Frame) : Run :=
  (s.takeIn frame.outer).close frame.mark (frame.family.kindAt frame.depth)

def abandonFrame (s : Run) (frame : Frame) : Run :=
  unterminated s frame.mark (frame.family.kindAt frame.depth) frame.opener frame.family.problem
    frame.outer

def isNesting : Nesting → Bool
  | (s, frames) => !frames.isEmpty && !s.atLineEnd

/-- One step at the innermost open construct: it is closed, or its content goes on. -/
def nestingStep : Nesting → Nesting
  | (s, []) => (s, [])
  | (s, frame :: frames) =>
    let mode := frame.family.mode
    if s.isAt frame.family.closer then (closeFrame s frame, frames)
    else if s.isAt .compoundOpen && frame.family == .compoundString then
      openFrame .compoundString (frame.depth + 1) mode (s, frame :: frames)
    else if s.isAt .backtick then
      let depth := frame.family.innerMacroDepth frame.depth
      openFrame .localMacro depth mode (s, frame :: frames)
    else if s.isAt .dollar then (globalMacro mode s, frame :: frames)
    else if s.isAt .doubleQuote then (doubleString mode s, frame :: frames)
    else (s.takeIn mode, frame :: frames)

/-- Reads on until all constructs are closed, and gives up those that the end of the line leaves
open. As one loop over both this is `nestingTurn`, in `Proofs.Nesting`. -/
def finishFrames (nesting : Nesting) : Run :=
  let (s, frames) := repeatWhile isNesting nestingStep nesting.1.rest nesting
  frames.foldl abandonFrame s

def nested (family : Family) (outer : Mode) (s : Run) : Run :=
  finishFrames (openFrame family 1 outer (s, []))

def compoundString (outer : Mode) (s : Run) : Run := nested .compoundString outer s

def localMacro (outer : Mode) (s : Run) : Run := nested .localMacro outer s

end Grammar

end Dofile
