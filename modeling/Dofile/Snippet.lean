import Dofile.Problem
import Dofile.Text.Lines

/-!
# Snippets

A diagnostic is shown with the line that it is about: a headline, the place, and
the line between rules with carets under the span. The span has to lie on one
line.
-/

namespace Dofile

def repeated (n : Nat) (c : Char) : String := String.ofList (List.replicate n c)

namespace Diagnostic

def headline (d : Diagnostic) : String := s!"error[{d.category.code}]: {d.message}"

def snippetLines (d : Diagnostic) (path : String) (text : List Char) : List String :=
  match LineColumn.of? text d.span.start, lineAt? text d.span.start with
  | some place, some line =>
    let number := toString (place.line + 1)
    let margin := repeated number.length ' '
    let indent := repeated place.column ' '
    let carets := repeated (max 1 (d.span.stop - d.span.start)) '^'
    [d.headline,
      s!"{margin}--> {path}:{number}:{place.column + 1}",
      s!"{margin} |",
      s!"{number} | {String.ofList line}",
      s!"{margin} | {indent}{carets} here",
      s!"{margin} |"]
  | _, _ => [d.headline]

/-- A diagnostic as it is shown to a reader, without a line feed at its end. -/
def render (d : Diagnostic) (path : String) (text : List Char) : String :=
  "\n".intercalate (d.snippetLines path text)

end Diagnostic

end Dofile
