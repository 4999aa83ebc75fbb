import Dofile.CommandLine

/-!
# The program

Reads the file that the arguments name, and writes what the call answers.
-/

namespace Dofile.CommandLine

def ReadFailure.ofSystem : IO.Error → ReadFailure
  | .noFileOrDirectory .. => .notFound
  | .inappropriateType .. => .isDirectory
  | failure => .system (toString failure)

def readText (path : String) : IO (Except ReadFailure String) := do
  try
    return decode (← IO.FS.readBinFile path)
  catch failure => return .error (.ofSystem failure)

def Request.read : Request → IO (Except ReadFailure String)
  | .version => return .error .notFound
  | .act _ path => readText path

end Dofile.CommandLine

open Dofile.CommandLine in
def main (arguments : List String) : IO UInt32 := do
  match Request.ofArguments? arguments with
  | none =>
    IO.eprintln "usage: --version | (tree | check | highlight) <path>"
    return 2
  | some request =>
    let contents ← request.read
    let outcome := request.outcome fun _ => contents
    IO.print outcome.output
    IO.eprint outcome.errors
    return outcome.status.toUInt32
