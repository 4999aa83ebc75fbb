import Dofile.Grammar.Statement
import Dofile.Log.Replay
import Dofile.Tree.Outline

/-!
# Parsing

`Parse.ofText` reads a whole do-file. Malformed text is no failure: it becomes
problem nodes in the tree and findings beside it.
-/

namespace Dofile

inductive Failure where
  | breach (breach : Breach)
  /-- A node was started and never closed. -/
  | unsettled
  | fault (fault : Fault)
  deriving DecidableEq

structure Parse where
  tree : Tree
  /-- The problems in the order in which they were found. -/
  findings : List Finding
  deriving DecidableEq

namespace Parse

def ofText? (text : List Char) : Except Failure Parse :=
  let run := Grammar.sourceFile (.ofText text)
  match run.breach? with
  | some breach => .error (.breach breach)
  | none =>
    if run.log.isSettled then
      match run.log.replay text with
      | .ok tree => .ok ⟨tree, run.findings.toList⟩
      | .error fault => .error (.fault fault)
    else .error .unsettled

/-- A tree that says nothing of its text, in place of one whose log cannot be replayed. -/
def plainTree (text : List Char) : Tree := .node .sourceFile [.leaf .other text, .leaf .eof []]

def ofText (text : List Char) : Parse :=
  match ofText? text with
  | .ok parse => parse
  | .error _ => ⟨plainTree text, []⟩

def root (p : Parse) : Place := .ofRoot p.tree

def text (p : Parse) : List Char := p.tree.text

def diagnostics (p : Parse) : List Diagnostic := p.findings.map Finding.diagnostic

def outline (p : Parse) : String :=
  let problems := p.diagnostics.map fun d => "  " ++ d.summary ++ "\n"
  p.tree.outline ++ "Errors:\n" ++ String.join problems

end Parse

end Dofile
