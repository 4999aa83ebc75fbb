import Dofile.Proofs.Extension
import Dofile.Proofs.Tiling

/-!
# Positions

From some place on, a lexer returns the same tokens whatever stands before the place, as long
as the place is the start of a line in both texts or in neither. Only the offsets tell the
texts apart.
-/

namespace Dofile

/-- Looking back from behind a text needs nothing of that text but whether it ends at the start
of a line. -/
theorem isLineStart_behind (before text : List Char) (n : Nat) :
    isLineStart (before ++ text) (byteSize before + n) =
      (cutBytes n text).any fun parts => freshAfter (endsFresh before) parts.1 := by
  rw [isLineStart, cutBytes_behind]
  cases cutBytes n text with
  | none => rfl
  | some parts =>
    rw [← freshAfter_eq_endsFresh, Option.any_some, ← freshAfter_append, freshAfter_eq_endsFresh]
    rfl

theorem isLineStart_size (before text : List Char) :
    isLineStart (before ++ text) (byteSize before) = endsFresh before := by
  rw [isLineStart, cutBytes_byteSize]

/-! ## Steps behind another text -/

def Token.behind (size : Nat) (t : Token) : Token := { t with offset := t.offset + size }

namespace Lexer

theorem ahead_behind (size : Nat) (l : Lexer) : (l.behind size).ahead = l.ahead.behind size := rfl

/-- Moving a lexer moves the tokens that it returns and the place where it ends, and nothing else. -/
theorem run_behind (size : Nat) (steps : List Step) (l : Lexer) :
    run steps (l.behind size) = ((run steps l).1.map (Token.behind size), (run steps l).2.behind size) := by
  induction steps generalizing l with
  | nil => rfl
  | cons step steps ih =>
    cases step with
    | next mode => simp only [run, next_behind, ih, ahead_behind, List.map_cons]
    | relex mode => exact ih (l.relex mode)

/-- All that a lexer knows in some place of its text. -/
theorem Stands.eq_of_offset {before text : List Char} {l : Lexer} (h : l.Stands (before ++ text))
    (hat : l.offset = byteSize before) : l = ⟨byteSize before, endsFresh before, text, l.mode⟩ := by
  obtain ⟨before', htext, hoffset, hfresh⟩ := h
  have hcut := cutBytes_byteSize before' l.rest
  rw [← hoffset, hat, htext, cutBytes_byteSize] at hcut
  obtain ⟨rfl, hrest⟩ := Prod.mk.inj (Option.some.inj hcut)
  rw [freshAfter_eq_endsFresh] at hfresh
  rw [← hat, hrest, ← hfresh]

/-- Two lexers stand where the same text goes on, and both places are the start of a line, or neither
is. If they read on in one mode, then the same steps make them return the same tokens, with the same
one ahead in the end. The distance between the offsets of two such tokens is that between the places,
so that moving either by the size of what stands before the other makes them equal. Looking back
from further on tells the texts no better apart than looking back from the two places. -/
theorem run_from_equal_texts (before before' text : List Char)
    (hline : isLineStart (before ++ text) (byteSize before) = isLineStart (before' ++ text) (byteSize before'))
    (passed passed' : List Step) (hat : (run passed (ofText (before ++ text))).2.offset = byteSize before)
    (hat' : (run passed' (ofText (before' ++ text))).2.offset = byteSize before') (mode : Mode)
    (steps : List Step) :
    let l := (run passed (ofText (before ++ text))).2.relex mode
    let l' := (run passed' (ofText (before' ++ text))).2.relex mode
    (run steps l).1.map (Token.behind (byteSize before')) =
        (run steps l').1.map (Token.behind (byteSize before)) ∧
      (run steps l).2.ahead.behind (byteSize before') = (run steps l').2.ahead.behind (byteSize before) ∧
      ∀ n, isLineStart (before ++ text) (byteSize before + n) =
        isLineStart (before' ++ text) (byteSize before' + n) := by
  intro l l'
  rw [isLineStart_size, isLineStart_size] at hline
  have hl : l = ⟨byteSize before, endsFresh before, text, mode⟩ :=
    congrArg (relex · mode) ((run_stands passed (stands_ofText _)).1.eq_of_offset hat)
  have hl' : l' = ⟨byteSize before', endsFresh before', text, mode⟩ :=
    congrArg (relex · mode) ((run_stands passed' (stands_ofText _)).1.eq_of_offset hat')
  have hmoved : l.behind (byteSize before') = l'.behind (byteSize before) := by
    rw [hl, hl', behind, behind, hline, Nat.add_comm]
  have hrun := congrArg (run steps) hmoved
  rw [run_behind, run_behind] at hrun
  obtain ⟨htokens, hend⟩ := Prod.mk.inj hrun
  refine ⟨htokens, congrArg ahead hend, fun n => ?_⟩
  rw [isLineStart_behind, isLineStart_behind, hline]

/-- A star that opens a comment behind a line break and at the beginning of a text. -/
theorem run_from_equal_texts_star :
    let before := "é\n".toList
    let text := " * a\n*b".toList
    let passed := [Step.next .statement, .next .statement]
    let steps := [Step.next .statement, .relex .mataLine, .next .statement]
    let l := (run passed (ofText (before ++ text))).2.relex .statement
    let l' := (run [] (ofText ([] ++ text))).2.relex .statement
    isLineStart (before ++ text) (byteSize before) = isLineStart ([] ++ text) (byteSize []) ∧
      (run passed (ofText (before ++ text))).2.offset = byteSize before ∧
      (run [] (ofText ([] ++ text))).2.offset = byteSize [] ∧
      (run steps l).1.map (Token.behind (byteSize [])) = (run steps l').1.map (Token.behind (byteSize before)) ∧
      (run steps l).2.ahead.behind (byteSize []) = (run steps l').2.ahead.behind (byteSize before) ∧
      ∀ n, isLineStart (before ++ text) (byteSize before + n) = isLineStart ([] ++ text) (byteSize [] + n) := by
  intro before text passed steps
  refine ⟨by decide, by decide, rfl, ?_⟩
  exact run_from_equal_texts before [] text (by decide) passed [] (by decide) rfl .statement steps

end Lexer

end Dofile
