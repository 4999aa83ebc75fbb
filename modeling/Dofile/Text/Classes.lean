/-!
# Character classes

The classes of characters that the reader of a do-file tells apart. Blanks and
line breaks shape lines, word characters shape words, and all of these are
ASCII. Only the test for other white space is Unicode's.
-/

namespace Dofile

def isBlank (c : Char) : Bool := c == ' ' || c == '\t'

/-- Either half of a line's end: line feed or carriage return. -/
def isLineBreak (c : Char) : Bool := c == '\n' || c == '\r'

def isWordStart (c : Char) : Bool := c.isAlpha || c == '_'

def isWordPart (c : Char) : Bool := c.isAlphanum || c == '_'

/-- The Unicode property White_Space. -/
def isWhiteSpace (c : Char) : Bool :=
  let n := c.toNat
  (0x9 ≤ n && n ≤ 0xd) || n == 0x20 || n == 0x85 || n == 0xa0 || n == 0x1680 ||
    (0x2000 ≤ n && n ≤ 0x200a) || n == 0x2028 || n == 0x2029 || n == 0x202f || n == 0x205f ||
    n == 0x3000

theorem isWhiteSpace_of_isBlank {c : Char} (h : isBlank c) : isWhiteSpace c := by
  simp only [isBlank, Bool.or_eq_true, beq_iff_eq] at h
  rcases h with rfl | rfl <;> decide

theorem isWhiteSpace_of_isLineBreak {c : Char} (h : isLineBreak c) : isWhiteSpace c := by
  simp only [isLineBreak, Bool.or_eq_true, beq_iff_eq] at h
  rcases h with rfl | rfl <;> decide

theorem isWordPart_of_isWordStart {c : Char} (h : isWordStart c) : isWordPart c := by
  simp only [isWordStart, isWordPart, Char.isAlphanum, Bool.or_eq_true] at h ⊢
  exact h.elim (fun h => .inl (.inl h)) .inr

end Dofile
