import Dofile.Log
import Dofile.Problem

/-!
# Runs of the grammar

A run is the state in which the rules of the grammar read a text: the lexer, the
log of what was read and the problems found. A rule is a function from runs to
runs. Rules look at the token ahead, take it under its own or another kind, and
enclose what they take in nodes.
-/

namespace Dofile

/-- Repeats a step while a condition holds. Each repetition uses up one element of
`fuel`. -/
def repeatWhile {α σ : Type} (condition : σ → Bool) (step : σ → σ) : (fuel : List α) → σ → σ
  | [], s => s
  | _ :: fuel, s => if condition s then repeatWhile condition step fuel (step s) else s

/-- What the rules rely on and a run did not meet. No text leads to one. -/
inductive Breach where
  /-- A rule was applied at a token that it does not begin with. -/
  | unexpected (expected found : Kind)
  /-- No node starts at a mark. -/
  | noStart (mark : Nat)
  /-- A span ends before it starts. -/
  | reversed (span : Span)
  deriving DecidableEq

structure Run where
  lexer : Lexer
  log : Log
  findings : Array Finding
  /-- The first breach. -/
  breach? : Option Breach
  deriving DecidableEq

namespace Run

def ofText (text : List Char) : Run := ⟨.ofText text, .empty, #[], none⟩

/-! ## Looking ahead -/

def ahead (s : Run) : Token := s.lexer.ahead

def kind (s : Run) : Kind := s.ahead.kind

def isAt (s : Run) (k : Kind) : Bool := s.kind == k

def atLineEnd (s : Run) : Bool := s.isAt .newline || s.isAt .eof

def atWord (s : Run) : Bool := Word.kinds.contains s.kind

def atWordOf (s : Run) (words : List String) : Bool :=
  s.atWord && Word.isOneOf words s.ahead.text

def textAfter (s : Run) : List Char := s.lexer.after

/-! ## Expectations -/

/-- Notes a breach unless a condition holds. Only the first one is kept. -/
def require (s : Run) (holds : Bool) (breach : Breach) : Run :=
  if holds || s.breach?.isSome then s else { s with breach? := some breach }

def expect (s : Run) (k : Kind) : Run := s.require (s.isAt k) (.unexpected k s.kind)

/-! ## Taking tokens -/

/-- Takes the token ahead under another kind. The next one is read in `mode`. The end
of the text cannot be taken so. -/
def takeAs (s : Run) (kind : Kind) (mode : Mode) : Run :=
  let token := s.ahead
  if token.kind == .eof then s
  else { s with lexer := s.lexer.next mode, log := s.log.token { token with kind } }

def takeIn (s : Run) (mode : Mode) : Run := s.takeAs s.kind mode

def take (s : Run) : Run := s.takeIn .statement

def eat (s : Run) (k : Kind) : Run := if s.isAt k then s.take else s

/-- Logs the end of the text with the blanks before it. -/
def takeEnd (s : Run) : Run :=
  let s := s.expect .eof
  { s with log := s.log.token s.ahead }

def relex (s : Run) (mode : Mode) : Run := { s with lexer := s.lexer.relex mode }

/-! ## Problems -/

def reportAt (s : Run) (problem : Problem) (span : Span) : Run :=
  let s := s.require (span.start ≤ span.stop) (.reversed span)
  { s with findings := s.findings.push ⟨problem, span⟩ }

def report (s : Run) (problem : Problem) : Run := s.reportAt problem s.ahead.span

/-! ## Nodes -/

def mark (s : Run) : Nat := s.log.mark

def start (s : Run) : Run := { s with log := s.log.start }

def close (s : Run) (mark : Nat) (kind : Kind) : Run :=
  let s := s.require (s.log.isStart mark) (.noStart mark)
  { s with log := s.log.close mark kind }

def enclose (s : Run) (mark : Nat) : Run :=
  let s := s.require (s.log.isStart mark) (.noStart mark)
  { s with log := s.log.enclose mark }

def closeInError (s : Run) (mark : Nat) (kind : Kind) : Run :=
  let s := s.close mark kind
  let outer := s.mark
  (s.enclose mark).close outer .error

def node (s : Run) (kind : Kind) (rule : Run → Run) : Run :=
  let mark := s.mark
  (rule s.start).close mark kind

def takeInError (s : Run) (problem : Problem) : Run :=
  s.node .error fun s => (s.report problem).take

/-! ## Repetition -/

def rest (s : Run) : List Char := s.lexer.rest

/-- Repeats a rule while a condition holds. The rule has to take something each time,
so there are no more repetitions than characters. -/
def repeatWhile (s : Run) (condition : Run → Bool) (rule : Run → Run) : Run :=
  Dofile.repeatWhile condition rule s.rest s

end Run

end Dofile
