import Dofile.Typed

/-!
# Indentation

The places of a tree where the indentation of lines changes. Programs and mata
blocks that are not on one line indent where they begin and outdent at their
`end` or brace, and braces outside of mata blocks and macro references do so by
themselves.
-/

namespace Dofile

inductive IndentStep where
  /-- Lines behind are one level deeper. -/
  | indent
  /-- Lines from here on are one level shallower. -/
  | outdent
  deriving DecidableEq

structure IndentChange where
  offset : Nat
  step : IndentStep
  deriving DecidableEq

namespace IndentChange

def ofNode? (p : Place) : Option IndentStep :=
  match p.kind with
  | .programDefinition => some .indent
  | .mataBlock => if Typed.mataForm p = .inline then none else some .indent
  | _ => none

def ofLeaf? (k : Kind) (parent? : Option Kind) : Option IndentStep :=
  match k with
  | .leftBrace =>
    if parent? = some .mataBlock ∨ parent? = some .globalMacro then none else some .indent
  | .rightBrace => if parent? = some .globalMacro then none else some .outdent
  | .endKeyword =>
    if parent? = some .mataBlock ∨ parent? = some .programDefinition then some .outdent else none
  | _ => none

def ofElement? (p : Place) : Option IndentChange :=
  (if p.isLeaf then ofLeaf? p.kind p.parentKinds.head? else ofNode? p).map fun step =>
    ⟨p.start, step⟩

def ofTree (t : Tree) : List IndentChange := (Place.ofRoot t).elements.filterMap ofElement?

end IndentChange

end Dofile
