import Dofile.Text.Quoted
import Dofile.Tree.Place

/-!
# Outlines

The outline of a tree lists its elements one to a line, each indented by its
depth, with kind and span, and the leaves with their text.
-/

namespace Dofile

def Place.outlineLine (p : Place) : String :=
  let label := String.ofList (List.replicate (2 * p.depth) ' ') ++ p.summary
  if p.isLeaf then label ++ " " ++ String.ofList (Quoted.encode p.text) ++ "\n" else label ++ "\n"

def Tree.outline (t : Tree) : String :=
  String.join ((Place.ofRoot t).elements.map Place.outlineLine)

end Dofile
