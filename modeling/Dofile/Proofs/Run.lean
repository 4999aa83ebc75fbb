import Dofile.Grammar.Run
import Dofile.Proofs.Lexer

/-!
# Steps of a run

What the steps that rules are made of do to the lexer, and when a repetition ends.
-/

namespace Dofile

/-! ## Repetition -/

section
variable {α β σ : Type} {condition : σ → Bool} {step : σ → σ} {size : σ → Nat}
  (hstep : ∀ s, condition s = true → size (step s) < size s)

include hstep in
theorem stops_of_size {s : σ} (h : size s = 0) : condition s = false := by
  cases hc : condition s with
  | false => rfl
  | true =>
    have := hstep s hc
    omega

include hstep in
theorem repeatWhile_done : ∀ (fuel : List α) (s : σ), size s ≤ fuel.length →
    condition (repeatWhile condition step fuel s) = false
  | [], _, h => stops_of_size hstep (Nat.le_zero.mp h)
  | _ :: fuel, s, h => by
    simp only [repeatWhile]
    cases hc : condition s with
    | false => exact hc
    | true =>
      have := hstep s hc
      simp only [List.length_cons] at h
      exact repeatWhile_done fuel (step s) (by omega)

end

theorem repeatWhile_of_false {α σ : Type} {condition : σ → Bool} {step : σ → σ} {s : σ}
    (h : condition s = false) (fuel : List α) : repeatWhile condition step fuel s = s := by
  cases fuel with
  | nil => rfl
  | cons _ _ => simp [repeatWhile, h]

/-- What each step keeps holds after the repetition. -/
theorem repeatWhile_induct {α σ : Type} {condition : σ → Bool} {step : σ → σ} {P : σ → Prop}
    (hstep : ∀ s, condition s = true → P s → P (step s)) :
    ∀ (fuel : List α) (s : σ), P s → P (repeatWhile condition step fuel s)
  | [], _, h => h
  | _ :: fuel, s, h => by
    simp only [repeatWhile]
    cases hc : condition s with
    | false => exact h
    | true => exact repeatWhile_induct hstep fuel (step s) (hstep s hc h)

/-! ## Loops -/

structure Loop (σ : Type) where
  goesOn : σ → Bool
  turn : σ → σ

namespace Loop

variable {σ : Type} {loop : Loop σ} {s t u : σ}

inductive Reaches (loop : Loop σ) (s : σ) : σ → Prop where
  | refl : Reaches loop s s
  | turn {t : σ} (h : Reaches loop s t) (ht : loop.goesOn t = true) : Reaches loop s (loop.turn t)

def Ends (loop : Loop σ) (s t : σ) : Prop := loop.Reaches s t ∧ loop.goesOn t = false

theorem Reaches.trans (h : loop.Reaches s t) (h' : loop.Reaches t u) : loop.Reaches s u := by
  induction h' with
  | refl => exact h
  | turn _ hu ih => exact ih.turn hu

theorem reaches_turn (h : loop.goesOn s = true) : loop.Reaches s (loop.turn s) := .turn .refl h

theorem Reaches.keeps {P : σ → Prop} (h : loop.Reaches s t) (hs : P s)
    (hturn : ∀ u, loop.goesOn u = true → P u → P (loop.turn u)) : P t := by
  induction h with
  | refl => exact hs
  | turn _ hu ih => exact hturn _ hu ih

theorem reaches_repeatWhile {α : Type} {condition : σ → Bool} {step : σ → σ}
    (h : ∀ s, condition s = true → loop.goesOn s = true ∧ loop.turn s = step s) :
    ∀ (fuel : List α) (s : σ), loop.Reaches s (repeatWhile condition step fuel s)
  | [], s => .refl
  | _ :: fuel, s => by
    unfold repeatWhile
    split
    · rename_i hc
      obtain ⟨hgoes, hturn⟩ := h s hc
      rw [← hturn]
      exact (reaches_turn hgoes).trans (reaches_repeatWhile h fuel _)
    · exact .refl

end Loop

namespace Run

/-! ## Steps that leave the lexer alone -/

theorem kind_eq (s : Run) : s.kind = s.lexer.kind := rfl

theorem isAt_iff (s : Run) (k : Kind) : s.isAt k = true ↔ s.lexer.kind = k := by
  simp [isAt, kind_eq]

theorem isAt_eq_false_iff (s : Run) (k : Kind) : s.isAt k = false ↔ s.lexer.kind ≠ k := by
  simp [isAt, kind_eq]

theorem atLineEnd_iff (s : Run) : s.atLineEnd = true ↔ s.lexer.EndsLine := by
  simp [atLineEnd, isAt_iff, Lexer.EndsLine]

@[simp] theorem require_lexer (s : Run) (holds : Bool) (b : Breach) :
    (s.require holds b).lexer = s.lexer := by
  unfold require
  split <;> rfl

@[simp] theorem expect_lexer (s : Run) (k : Kind) : (s.expect k).lexer = s.lexer := require_lexer ..

@[simp] theorem start_lexer (s : Run) : s.start.lexer = s.lexer := rfl

@[simp] theorem close_lexer (s : Run) (mark : Nat) (kind : Kind) : (s.close mark kind).lexer = s.lexer :=
  require_lexer ..

@[simp] theorem enclose_lexer (s : Run) (mark : Nat) : (s.enclose mark).lexer = s.lexer :=
  require_lexer ..

@[simp] theorem reportAt_lexer (s : Run) (p : Problem) (span : Span) :
    (s.reportAt p span).lexer = s.lexer := require_lexer ..

@[simp] theorem report_lexer (s : Run) (p : Problem) : (s.report p).lexer = s.lexer := reportAt_lexer ..

@[simp] theorem closeInError_lexer (s : Run) (mark : Nat) (kind : Kind) :
    (s.closeInError mark kind).lexer = s.lexer := by
  simp [closeInError]

@[simp] theorem relex_lexer (s : Run) (mode : Mode) : (s.relex mode).lexer = s.lexer.relex mode := rfl

/-! ## Taking tokens -/

theorem takeAs_eq {s : Run} (h : s.lexer.kind ≠ .eof) (kind : Kind) (mode : Mode) :
    s.takeAs kind mode =
      { s with lexer := s.lexer.next mode, log := s.log.token { s.lexer.ahead with kind } } := by
  rw [takeAs, if_neg (by simpa [ahead, Lexer.kind] using h)]
  rfl

theorem takeAs_of_eof {s : Run} (h : s.lexer.kind = .eof) (kind : Kind) (mode : Mode) :
    s.takeAs kind mode = s := by
  rw [takeAs, if_pos (by simpa [ahead, Lexer.kind] using h)]

theorem takeIn_lexer {s : Run} (h : s.lexer.kind ≠ .eof) (mode : Mode) :
    (s.takeIn mode).lexer = s.lexer.next mode := by
  rw [takeIn, takeAs_eq h]

theorem takeIn_rest_lt {s : Run} (h : s.lexer.kind ≠ .eof) (mode : Mode) :
    (s.takeIn mode).rest.length < s.rest.length := by
  rw [rest, takeIn_lexer h]
  exact Lexer.after_length_lt h

theorem takeIn_rest_le (s : Run) (mode : Mode) : (s.takeIn mode).rest.length ≤ s.rest.length := by
  by_cases h : s.lexer.kind = .eof
  · simp only [takeIn, takeAs_of_eof h, Nat.le_refl]
  · exact Nat.le_of_lt (takeIn_rest_lt h mode)

end Run

end Dofile
