import Dofile.Log
import Dofile.Tree.Builder

/-!
# Replaying a log

`Log.replay` turns a log into a tree. It opens the nodes that enclose others
before those, though they are logged behind them, and it holds back the start of
a node until its first token, so that the blanks before the token stay outside
of the node.
-/

namespace Dofile

inductive Fault where
  /-- A start is linked to an event that is no start. -/
  | brokenLink
  | refused (error : Builder.Error)
  deriving DecidableEq

namespace Fault

def ofBuilder {α : Type} : Except Builder.Error α → Except Fault α
  | .ok a => .ok a
  | .error e => .error (.refused e)

end Fault

/-- A tree in the making and the nodes that wait for their first token, the outermost
first. -/
structure Replay where
  builder : Builder
  pending : List Kind
  deriving DecidableEq

namespace Replay

def ofText (text : List Char) : Replay := ⟨.ofText text, []⟩

def flush (r : Replay) : Except Fault Replay := do
  let builder ← Fault.ofBuilder (r.pending.foldlM Builder.enter r.builder)
  .ok ⟨builder, []⟩

def isFresh (r : Replay) : Bool := r.builder.frames.isEmpty && r.builder.root?.isNone

/-- Starts nodes, the outermost first. Only the root does not wait for its first token. -/
def start (r : Replay) (kinds : List Kind) : Except Fault Replay :=
  match r.isFresh, kinds with
  | true, root :: kinds => do
    let builder ← Fault.ofBuilder (r.builder.enter root)
    .ok ⟨builder, r.pending ++ kinds⟩
  | _, _ => .ok { r with pending := r.pending ++ kinds }

def finish (r : Replay) : Except Fault Replay := do
  let r ← r.flush
  let builder ← Fault.ofBuilder r.builder.leave
  .ok { r with builder }

/-- Adds a token. Its blanks go to the innermost node that is open already. -/
def token (r : Replay) (t : Token) : Except Fault Replay := do
  let builder ← Fault.ofBuilder (r.builder.blanks (byteSize t.leading))
  let r ← flush { r with builder }
  let builder ← Fault.ofBuilder (r.builder.leaf t.kind (byteSize t.text))
  .ok { r with builder }

/-- The kinds of the start with `distance` events before it and of those that it is
linked to in turn, the innermost first. They are struck from the events. -/
def strike : Nat → List Event → Except Fault (List Kind × List Event)
  | _, [] => .error .brokenLink
  | 0, .start kind? outer? :: events => do
    let (kinds, events) ←
      match outer? with
      | some (distance + 1) => strike distance events
      | _ => .ok ([], events)
    .ok (kind?.toList ++ kinds, .start none none :: events)
  | 0, _ :: _ => .error .brokenLink
  | distance + 1, e :: events => do
    let (kinds, events) ← strike distance events
    .ok (kinds, e :: events)

def follow (outer? : Option Nat) (events : List Event) : Except Fault (List Kind × List Event) :=
  match outer? with
  | some (distance + 1) => strike distance events
  | _ => .ok ([], events)

def run : Nat → List Event → Replay → Except Fault Replay
  | 0, _, r => .ok r
  | _, [], r => .ok r
  | fuel + 1, .start none _ :: events, r => run fuel events r
  | fuel + 1, .start (some kind) outer? :: events, r => do
    let (kinds, events) ← follow outer? events
    run fuel events (← r.start (kind :: kinds).reverse)
  | fuel + 1, .token t :: events, r => do run fuel events (← r.token t)
  | fuel + 1, .finish :: events, r => do run fuel events (← r.finish)

end Replay

def Log.replay (log : Log) (text : List Char) : Except Fault Tree := do
  let r ← Replay.run log.events.size log.events.toList (.ofText text)
  Fault.ofBuilder r.builder.finish

end Dofile
