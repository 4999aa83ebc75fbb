import Dofile.Kind

/-!
# Sets of kinds

A set of kinds is one bit for each kind, spread over two machine words: a kind's
index divided by 64 chooses the word, the remainder the bit.
-/

namespace Dofile.Kind

structure Set where
  low : UInt64
  high : UInt64
  deriving DecidableEq

namespace Set

def slot (s : Set) (k : Kind) : UInt64 := if k.index / 64 = 0 then s.low else s.high

def mask (k : Kind) : UInt64 := 1 <<< UInt64.ofNat (k.index % 64)

def empty : Set := ⟨0, 0⟩

def singleton (k : Kind) : Set := if k.index / 64 = 0 then ⟨mask k, 0⟩ else ⟨0, mask k⟩

def union (a b : Set) : Set := ⟨a.low ||| b.low, a.high ||| b.high⟩

def ofList (kinds : List Kind) : Set := kinds.foldl (fun s k => s.union (singleton k)) empty

def contains (s : Set) (k : Kind) : Bool := s.slot k &&& mask k != 0

def toList (s : Set) : List Kind := all.filter s.contains

end Set

end Dofile.Kind
