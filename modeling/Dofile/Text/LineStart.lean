import Dofile.Text.Classes
import Dofile.Text.Span

/-!
# Line starts

A `*` opens a comment only where nothing but blanks precedes it on its line.
`isLineStart` answers this for an offset of a text. `freshAfter` carries the
answer along while a text is read, so that a reader need not look back.
-/

namespace Dofile

def endsFresh (before : List Char) : Bool :=
  match before.reverse.dropWhile isBlank with
  | [] => true
  | c :: _ => isLineBreak c

/-- Whether a text ends at the start of a line, told from whether it begins there. -/
def freshAfter (fresh : Bool) (text : List Char) : Bool :=
  text.foldl (fun fresh c => isLineBreak c || (fresh && isBlank c)) fresh

/-- Whether only blanks stand between the last line break (or the beginning of
the text) and an offset. An offset that is no place of the text is no line start. -/
def isLineStart (text : List Char) (offset : Nat) : Bool :=
  match cutBytes offset text with
  | none => false
  | some (before, _) => endsFresh before

@[simp] theorem freshAfter_nil (fresh : Bool) : freshAfter fresh [] = fresh := rfl

theorem freshAfter_append (fresh : Bool) (a b : List Char) :
    freshAfter fresh (a ++ b) = freshAfter (freshAfter fresh a) b := by
  simp [freshAfter]

/-- Reading forward from the beginning gives the answer of looking back. -/
theorem freshAfter_eq_endsFresh (text : List Char) : freshAfter true text = endsFresh text := by
  suffices h : ∀ reversed : List Char, freshAfter true reversed.reverse = endsFresh reversed.reverse by
    simpa using h text.reverse
  intro reversed
  induction reversed with
  | nil => rfl
  | cons c rest ih =>
    rw [List.reverse_cons, freshAfter_append, ih]
    simp only [freshAfter, List.foldl_cons, List.foldl_nil, endsFresh, List.reverse_append,
      List.reverse_cons, List.reverse_nil, List.nil_append, List.reverse_reverse, List.cons_append,
      List.dropWhile_cons]
    cases hb : isBlank c
    · simp
    · have hc : isLineBreak c = false := by
        simp only [isBlank, Bool.or_eq_true, beq_iff_eq] at hb
        rcases hb with rfl | rfl <;> decide
      simp [hc]

end Dofile
