import Dofile.Token.Lexer

/-!
# Logs

While a text is read, what happens is logged as a list of events: a node starts,
a token is taken, a node is finished. A node starts before its kind is known, so
its start leaves a mark, and the kind is settled when it is closed. A node that
is already closed can still be enclosed: its parent's start is logged behind it,
and its own start is linked forward to that.
-/

namespace Dofile

inductive Event where
  /-- A node starts. Its kind is known once it is closed, and `outer?` tells how many
  events ahead the node that encloses it starts, if that was logged later. -/
  | start (kind? : Option Kind) (outer? : Option Nat)
  | token (token : Token)
  | finish
  deriving DecidableEq

/-- Whether a start has its kind, as it has once it is closed. All other events are settled. -/
def Event.isSettled : Event → Bool
  | .start none _ => false
  | _ => true

structure Log where
  events : Array Event
  deriving DecidableEq

namespace Log

def empty : Log := ⟨#[]⟩

/-- The position of the next event. Positions are 32-bit numbers where logs are kept in
memory, and natural numbers here. The two agree as long as a log has no more than
`maxOffset` events, and so for every text up to 477218588 bytes (see `Proofs.Sizes`);
past that a position wraps around there, and not here. -/
def mark (log : Log) : Nat := log.events.size

def push (log : Log) (e : Event) : Log := ⟨log.events.push e⟩

def isStart (log : Log) (mark : Nat) : Bool :=
  match log.events[mark]? with
  | some (.start ..) => true
  | _ => false

def isSettled (log : Log) : Bool := log.events.all Event.isSettled

def modify (log : Log) (mark : Nat) (change : Event → Event) : Log :=
  ⟨log.events.modify mark change⟩

def start (log : Log) : Log := log.push (.start none none)

def token (log : Log) (t : Token) : Log := log.push (.token t)

def setKind (kind : Kind) : Event → Event
  | .start _ outer? => .start (some kind) outer?
  | e => e

def setOuter (distance : Nat) : Event → Event
  | .start kind? _ => .start kind? (some distance)
  | e => e

def close (log : Log) (mark : Nat) (kind : Kind) : Log :=
  (log.modify mark (setKind kind)).push .finish

def enclose (log : Log) (mark : Nat) : Log :=
  (log.modify mark (setOuter (log.mark - mark))).start

end Log

end Dofile
