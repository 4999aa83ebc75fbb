import Dofile.Editor.Capture
import Dofile.Editor.Indent
import Dofile.Editor.Pair
import Dofile.Parse
import Dofile.Text.Lines

/-!
# Workspaces

A workspace is a list of documents, numbered in the order in which they were
opened. An edit replaces the whole text of one. What is asked of a document is
always answered from its present text.
-/

namespace Dofile

structure Document where
  path : String
  text : List Char
  deriving DecidableEq

namespace Document

def parse (d : Document) : Parse := .ofText d.text

/-- The diagnostics by the order of their starts. Those that start together stay in
the order in which they were found. -/
def diagnostics (d : Document) : List Diagnostic :=
  d.parse.diagnostics.mergeSort fun a b => a.span.start ≤ b.span.start

def lineColumn? (d : Document) (offset : Nat) : Option LineColumn := LineColumn.of? d.text offset

def highlights (d : Document) : List Highlight := Highlight.ofTree d.parse.tree

def pairs (d : Document) : List Pair := Pair.ofTree d.parse.tree

def indentChanges (d : Document) : List IndentChange := IndentChange.ofTree d.parse.tree

def matching? (d : Document) (offset : Nat) : Option Span := Pair.matching? d.parse.tree offset

end Document

structure Workspace where
  documents : List Document
  deriving DecidableEq

namespace Workspace

def empty : Workspace := ⟨[]⟩

def add (w : Workspace) (d : Document) : Workspace := ⟨w.documents ++ [d]⟩

def document? (w : Workspace) (number : Nat) : Option Document := w.documents[number]?

def edit (w : Workspace) (number : Nat) (text : List Char) : Workspace :=
  ⟨w.documents.modify number fun d => { d with text }⟩

end Workspace

end Dofile
