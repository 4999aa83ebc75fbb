import Dofile.Snippet
import Dofile.Text.Quoted
import Dofile.Workspace

/-!
# The command line

Three commands answer for one file: its outline, its problems, its highlighted
ranges. The outcome of a call is a value, computed from the arguments and from
what reading the file gave. Only the program around it reads and writes.
-/

namespace Dofile.CommandLine

def version : String := "sight 0.1.0"

inductive Action where
  | outline
  | check
  | highlight
  deriving DecidableEq

inductive Request where
  | version
  | act (action : Action) (path : String)
  deriving DecidableEq

def Request.ofArguments? : List String → Option Request
  | ["--version"] => some .version
  | ["tree", path] => some (.act .outline path)
  | ["check", path] => some (.act .check path)
  | ["highlight", path] => some (.act .highlight path)
  | _ => none

inductive ReadFailure where
  | notFound
  | isDirectory
  | notUtf8
  /-- Any other reason, in the words of the system. -/
  | system (reason : String)
  deriving DecidableEq

def ReadFailure.message : ReadFailure → String
  | notFound => "No such file or directory (os error 2)"
  | isDirectory => "Is a directory (os error 21)"
  | notUtf8 => "stream did not contain valid UTF-8"
  | system reason => reason

/-- The text of a file's bytes. A byte order mark is kept. -/
def decode (bytes : ByteArray) : Except ReadFailure String :=
  match String.fromUTF8? bytes with
  | some text => .ok text
  | none => .error .notUtf8

structure Outcome where
  status : Nat
  output : String
  errors : String
  deriving DecidableEq

def highlightLine (text : List Char) (h : Highlight) : String :=
  let covered := (h.span.slice? text).getD []
  s!"{h.span.render} {h.capture.name} {String.ofList (Quoted.encode covered)}\n"

/-- What an action answers for a document. A check ends with status 1 if there is
anything to report. -/
def Action.run (action : Action) (d : Document) : Outcome :=
  match action with
  | .outline => ⟨0, d.parse.outline, ""⟩
  | .check =>
    let diagnostics := d.diagnostics
    let rendered := diagnostics.map fun diagnostic => diagnostic.render d.path d.text ++ "\n"
    ⟨if diagnostics.isEmpty then 0 else 1, "", String.join rendered⟩
  | .highlight => ⟨0, String.join (d.highlights.map (highlightLine d.text)), ""⟩

def ReadFailure.outcome (failure : ReadFailure) (path : String) : Outcome :=
  ⟨1, "", s!"Error: failed to read `{path}`\n\nCaused by:\n    {failure.message}\n"⟩

/-- What a call answers, where `read` gives what reading a file at a path yields. -/
def Request.outcome (request : Request) (read : String → Except ReadFailure String) : Outcome :=
  match request with
  | .version => ⟨0, CommandLine.version ++ "\n", ""⟩
  | .act action path =>
    match read path with
    | .ok text => action.run ⟨path, text.toList⟩
    | .error failure => failure.outcome path

end Dofile.CommandLine
