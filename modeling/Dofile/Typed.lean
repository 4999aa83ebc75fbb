import Dofile.Tree.Place

/-!
# Nodes and what they stand for

A node of a syntax tree is only a kind with children. Here nodes are read as what
they stand for: a program with its name, header and body, a command with its
prefixes and arguments, a string that is closed or not. Everything is looked up
by kind, so a node that lacks a part, as those of malformed text do, is read with
that part missing.
-/

namespace Dofile.Typed

/-- The children that carry meaning: neither blanks nor comments. -/
def significant (p : Place) : List Place :=
  p.children.filter fun child =>
    if child.isLeaf then !child.kind.isTrivia && !child.kind.isComment else child.kind != .comment

def significantAfter (kinds : List Kind) (p : Place) : List Place :=
  (significant p).dropWhile fun child => kinds.contains child.kind

def keyword? (kinds : List Kind) (p : Place) : Option Place :=
  p.childLeaves.find? fun leaf => kinds.contains leaf.kind

def names (p : Place) : List (List Char) :=
  (p.childNodes.filter (·.kind == .name)).map Place.trimmedText

def name? (p : Place) : Option (List Char) := (names p).head?

def isStatement : Kind → Bool
  | .comment | .programDefinition | .mataBlock | .macroDefinition | .command | .blockClose => true
  | _ => false

def statements (p : Place) : List Place := p.childNodes.filter fun child => isStatement child.kind

/-! ## Programs -/

/-- A program. Its header is what stands on its first line behind the name. -/
structure Program where
  name? : Option (List Char)
  header : List Place
  body : List Place
  /-- The `end` that closes it. -/
  closer? : Option Place
  deriving DecidableEq

def Program.ofNode (p : Place) : Program where
  name? := Typed.name? p
  header := (significantAfter [.programKeyword, .defineKeyword, .name] p).takeWhile
    fun child => child.kind != .newline
  body := statements p
  closer? := keyword? [.endKeyword] p

/-! ## Mata blocks -/

inductive MataForm where
  | braced
  | multiline
  | inline
  deriving DecidableEq

structure Mata where
  form : MataForm
  hasColon : Bool
  /-- The pieces of content, one to a line in a block of several lines. -/
  content : List Place
  deriving DecidableEq

def mataForm (p : Place) : MataForm :=
  if (p.childLeaf? .leftBrace).isSome then .braced
  else if (p.childLeaf? .endKeyword).isSome || (p.childLeaf? .newline).isSome then .multiline
  else .inline

def Mata.ofNode (p : Place) : Mata where
  form := mataForm p
  hasColon := (p.childLeaf? .colon).isSome
  content := p.childLeaves.filter (·.kind == .mataContent)

/-! ## Macro definitions -/

structure Definition where
  keyword? : Option Place
  names : List (List Char)
  value : List Place
  deriving DecidableEq

def Definition.ofNode (p : Place) : Definition where
  keyword? := Typed.keyword? [.localKeyword, .globalKeyword, .tempKeyword] p
  names := Typed.names p
  value := significantAfter [.localKeyword, .globalKeyword, .name] p

/-! ## Commands -/

structure CommandPrefix where
  keyword? : Option Place
  hasColon : Bool
  deriving DecidableEq

def CommandPrefix.ofNode (p : Place) : CommandPrefix where
  keyword? := Typed.keyword? [.prefixKeyword] p
  hasColon := (p.childLeaf? .colon).isSome

structure Command where
  prefixes : List CommandPrefix
  name? : Option (List Char)
  arguments : List Place
  deriving DecidableEq

def Command.ofNode (p : Place) : Command where
  prefixes := (p.childNodes.filter (·.kind == .commandPrefix)).map CommandPrefix.ofNode
  name? := Typed.name? p
  arguments := significantAfter [.commandPrefix, .name] p

/-! ## Strings, macro references and comments -/

def isTerminatedComment (p : Place) : Bool := (p.childNode? .error).isNone

def isTerminatedDoubleString (p : Place) : Bool :=
  (p.children.filter (·.kind == .doubleQuote)).length == 2

def endsWith (k : Kind) (p : Place) : Bool := p.lastLeaf?.any (·.kind == k)

structure GlobalMacro where
  name? : Option Place
  isBraced : Bool
  deriving DecidableEq

def GlobalMacro.ofNode (p : Place) : GlobalMacro where
  name? := p.childLeaf? .ident
  isBraced := (p.childLeaf? .leftBrace).isSome

/-! ## Any node -/

inductive View where
  | comment (isTerminated : Bool)
  | program (program : Program)
  | mata (mata : Mata)
  | definition (definition : Definition)
  | command (command : Command)
  | blockClose
  | doubleString (isTerminated : Bool)
  | compoundString (depth : Nat) (isTerminated : Bool)
  | localMacro (depth : Nat) (isTerminated : Bool)
  | globalMacro (reference : GlobalMacro)
  deriving DecidableEq

/-- Reads a node as what it stands for. The nodes within those are not read alone. -/
def view? (p : Place) : Option View :=
  match p.kind with
  | .comment => some (.comment (isTerminatedComment p))
  | .programDefinition => some (.program (.ofNode p))
  | .mataBlock => some (.mata (.ofNode p))
  | .macroDefinition => some (.definition (.ofNode p))
  | .command => some (.command (.ofNode p))
  | .blockClose => some .blockClose
  | .doubleString => some (.doubleString (isTerminatedDoubleString p))
  | .compoundString label => some (.compoundString (label + 1) (endsWith .compoundClose p))
  | .localMacro label => some (.localMacro (label + 1) (endsWith .quote p))
  | .globalMacro => some (.globalMacro (.ofNode p))
  | _ => none

end Dofile.Typed
