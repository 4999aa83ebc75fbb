import Dofile.Tree

/-!
# Building trees

A builder turns a sequence of calls into a tree over a given text: nodes are
entered and left, and leaves of a given length take their characters from the
text. It accepts exactly the sequences that describe one tree whose leaves cover
the text, and refuses any other at its first offending call. It numbers no elements, so
unlike a `Writer` it takes any number of them. Trees of texts up to 477218588 bytes are
small enough for either (see `Proofs.Navigation`).
-/

namespace Dofile

/-- The largest number of 32 bits. No offset, no position in a log and no number of an
element is larger. -/
def maxOffset : Nat := 0xFFFFFFFF

/-- An open node and the children it has so far, the last first. -/
structure Builder.Frame where
  kind : Kind
  children : List Tree
  deriving DecidableEq

structure Builder where
  /-- The number of bytes of the whole text. -/
  size : Nat
  /-- The text that no leaf has taken yet. -/
  rest : List Char
  /-- The number of bytes taken. -/
  offset : Nat
  /-- The open nodes, the innermost first. -/
  frames : List Builder.Frame
  /-- The tree, once its root is finished. -/
  root? : Option Tree
  deriving DecidableEq

namespace Builder

inductive Error where
  | tokenKind (kind : Kind)
  | secondRoot
  | noOpenNode
  | nodeKind (kind : Kind)
  | offsetOverflow
  | offText (kind : Kind) (span : Span)
  | unfinishedNodes (count : Nat)
  | noRoot
  | uncoveredText (reached size : Nat)
  | tooManyElements
  | dropped
  deriving DecidableEq

def Error.message : Error → String
  | tokenKind k => k.tag ++ " is a token kind"
  | secondRoot => "a syntax tree has exactly one root"
  | noOpenNode => "no opened nodes?"
  | nodeKind k => k.tag ++ " is a node kind"
  | offsetOverflow => "attempt to add with overflow"
  | offText k span => s!"token {k.tag} at {span.render} does not fall on the source text"
  | unfinishedNodes count => s!"unfinished nodes: {count}"
  | noRoot => "a syntax tree needs a root node"
  | uncoveredText reached size =>
    "assertion `left == right` failed: tokens do not cover the whole source text\n" ++
      s!"  left: {reached}\n right: {size}"
  | tooManyElements => "syntax tree exceeds u32::MAX elements"
  | dropped => "you should call `Builder::finish()`"

def ofText (text : List Char) : Builder := ⟨byteSize text, text, 0, [], none⟩

def enter (b : Builder) (kind : Kind) : Except Error Builder :=
  if !kind.isNode then .error (.tokenKind kind)
  else if b.frames.isEmpty && b.root?.isSome then .error .secondRoot
  else .ok { b with frames := ⟨kind, []⟩ :: b.frames }

def leave (b : Builder) : Except Error Builder :=
  match b.frames with
  | [] => .error .noOpenNode
  | [frame] => .ok { b with frames := [], root? := some (.node frame.kind frame.children.reverse) }
  | frame :: outer :: frames =>
    .ok { b with
      frames := ⟨outer.kind, .node frame.kind frame.children.reverse :: outer.children⟩ :: frames }

def leaf (b : Builder) (kind : Kind) (length : Nat) : Except Error Builder :=
  if kind.isNode then .error (.nodeKind kind)
  else match b.frames with
    | [] => .error .noOpenNode
    | frame :: frames =>
      if maxOffset < b.offset + length then .error .offsetOverflow
      else match cutBytes length b.rest with
        | none => .error (.offText kind ⟨b.offset, b.offset + length⟩)
        | some (text, rest) =>
          .ok { b with
            rest
            offset := b.offset + length
            frames := ⟨frame.kind, .leaf kind text :: frame.children⟩ :: frames }

def blanks (b : Builder) (length : Nat) : Except Error Builder :=
  if length = 0 then .ok b else b.leaf .whitespace length

def finish (b : Builder) : Except Error Tree :=
  if !b.frames.isEmpty then .error (.unfinishedNodes b.frames.length)
  else match b.root? with
    | none => .error .noRoot
    | some root => if b.offset = b.size then .ok root else .error (.uncoveredText b.offset b.size)

/-- Gives the builder up. This is refused while nodes are open. -/
def discard (b : Builder) : Except Error Unit :=
  if b.frames.isEmpty then .ok () else .error .dropped

inductive Call where
  | enter (kind : Kind)
  | leaf (kind : Kind) (length : Nat)
  | blanks (length : Nat)
  | leave
  deriving DecidableEq

def apply (b : Builder) : Call → Except Error Builder
  | .enter kind => b.enter kind
  | .leaf kind length => b.leaf kind length
  | .blanks length => b.blanks length
  | .leave => b.leave

def build (text : List Char) (calls : List Call) : Except Error Tree := do
  (← calls.foldlM apply (ofText text)).finish

end Builder

end Dofile
