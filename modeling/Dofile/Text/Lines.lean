import Dofile.Text.Span

/-!
# Lines and columns

Lines end at line feeds only, so that a carriage return belongs to the line that
it ends. Lines and columns are counted from 0, columns in bytes.
-/

namespace Dofile

structure LineColumn where
  line : Nat
  column : Nat
  deriving DecidableEq

namespace LineColumn

def atEnd (before : List Char) : LineColumn where
  line := before.count '\n'
  column := byteSize (before.reverse.takeWhile (· != '\n'))

/-- The line and column of an offset. An offset past the end of the text or inside a
character has none. -/
def of? (text : List Char) (offset : Nat) : Option LineColumn :=
  (cutBytes offset text).map fun (before, _) => atEnd before

end LineColumn

def lineAt? (text : List Char) (offset : Nat) : Option (List Char) :=
  (cutBytes offset text).map fun (before, after) =>
    (before.reverse.takeWhile (· != '\n')).reverse ++ after.takeWhile (· != '\n')

end Dofile
