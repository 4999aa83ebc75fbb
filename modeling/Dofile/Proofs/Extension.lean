import Dofile.Proofs.OneLine
import Dofile.Proofs.TransportRules

/-!
# Longer texts

Two transports: to a text behind another one, and from a text to one that goes on
behind it. The first moves offsets and nothing else. The second needs a text that ends
with a line feed, so that only comments and blocks without their ends reach what is
new.
-/

namespace Dofile

open Grammar (prefixApplies atProgramSubcommand)
open Reading (AtOpenComment)

/-! ## A text behind another -/

/-- The lexer with another text of some size before its own. -/
def Lexer.behind (size : Nat) (l : Lexer) : Lexer := { l with offset := l.offset + size }

theorem Lexer.start_behind (size : Nat) (l : Lexer) : (l.behind size).ahead.start = l.ahead.start + size :=
  Nat.add_right_comm l.offset size (byteSize l.leading)

theorem Lexer.stop_behind (size : Nat) (l : Lexer) : (l.behind size).ahead.stop = l.ahead.stop + size := by
  have hstart := l.start_behind size
  rw [Token.stop, hstart]
  exact Nat.add_right_comm ..

theorem Lexer.next_behind (size : Nat) (l : Lexer) (mode : Mode) :
    (l.behind size).next mode = (l.next mode).behind size := by
  unfold Lexer.next
  rw [l.stop_behind size]
  rfl

def Transport.behind (size : Nat) : Transport where
  map := Lexer.behind size
  shift := (· + size)
  Near _ := True
  Torn _ := False
  Spent _ := False
  Bad _ := False
  shift_le h := Nat.add_le_add_right h size
  near_relex _ _ := trivial
  map_relex _ _ := rfl
  kind_map _ := rfl
  start_map {l} _ := l.start_behind size
  stop_map {l} _ _ := l.stop_behind size
  isTerminated_map _ _ _ := rfl
  text_map _ _ := rfl
  prefixApplies_map _ _ := rfl
  atProgramSubcommand_map _ _ := rfl
  map_next {l} _ _ _ mode := (l.next_behind size mode).symm
  near_next _ _ _ _ _ := trivial
  near_or_spent _ _ _ := .inl trivial
  kind_of_spent h := h.elim
  torn_cases h := h.elim
  bad_of_torn h := h.elim
  bad_of_spent h := h.elim

/-! ## A text that goes on -/

namespace Lexer

def extend (more : List Char) (l : Lexer) : Lexer := { l with rest := l.rest ++ more }

section
variable {l : Lexer} (h : LineEnded l.rest)
include h

theorem leading_extend (more : List Char) : (l.extend more).leading = l.leading := by
  unfold leading
  rw [show (l.extend more).mode = l.mode from rfl, show (l.extend more).rest = l.rest ++ more from rfl,
    (h.sameLine more).takeWhile rfl rfl]

theorem body_extend (more : List Char) : (l.extend more).body = l.body ++ more ∧ LineEnded l.body := by
  have hn : '\n' ∉ l.leading := fun hn => absurd (isBlank_of_mem_leading hn) (by decide)
  unfold body
  rw [leading_extend h more]
  exact drop_lineEnded h l.leading_isPrefix hn more

theorem agrees_extend (more : List Char) :
    Lexeme.Agrees l.body (l.mode.lexeme l.fresh l.body) (l.mode.lexeme l.fresh (l.extend more).body) := by
  obtain ⟨hbody, hended⟩ := body_extend h more
  rw [hbody]
  exact l.mode.lexeme_agrees l.fresh hended more

theorem kind_extend (more : List Char) : (l.extend more).kind = l.kind := by
  rw [kind_eq, kind_eq]
  rcases agrees_extend h more with heq | ⟨hk, -⟩
  · exact congrArg Lexeme.kind heq
  · exact hk

end

def Torn (l : Lexer) : Prop := LineEnded l.rest ∧ l.kind ≠ .newline ∧ l.after = []

theorem takesAll_iff (l : Lexer) :
    (l.mode.lexeme l.fresh l.body).TakesAll l.body ↔ l.kind ≠ .newline ∧ l.after = [] := by
  have htext := l.text_append_after
  rw [Lexeme.TakesAll, and_comm]
  refine and_congr Iff.rfl ⟨fun hall => ?_, fun hnil => ?_⟩
  · have hall : l.ahead.text = l.body := hall
    rw [hall] at htext
    exact List.append_right_eq_self.mp htext
  · rw [hnil, List.append_nil] at htext
    exact htext

theorem ahead_extend {l : Lexer} (h : LineEnded l.rest) (ht : ¬ l.Torn) (more : List Char) :
    (l.extend more).ahead = l.ahead := by
  have hlexeme : l.mode.lexeme l.fresh (l.extend more).body = l.mode.lexeme l.fresh l.body := by
    rcases agrees_extend h more with heq | ⟨-, hall⟩
    · exact heq
    · exact absurd ⟨h, l.takesAll_iff.mp hall⟩ ht
  rw [ahead_eq, ahead_eq, leading_extend h more, show (l.extend more).mode = l.mode from rfl,
    show (l.extend more).fresh = l.fresh from rfl, hlexeme]
  rfl

theorem after_extend {l : Lexer} (h : LineEnded l.rest) (ht : ¬ l.Torn) (more : List Char) :
    (l.extend more).after = l.after ++ more := by
  have htext := (l.extend more).text_append_after
  rw [ahead_extend h ht more, (body_extend h more).1, ← l.text_append_after, List.append_assoc] at htext
  exact List.append_cancel_left htext

theorem lineEnded_after {l : Lexer} (h : LineEnded l.rest) (hn : l.after ≠ []) : LineEnded l.after := by
  rw [← l.fullText_append_after] at h
  exact lineEnded_of_append h hn

theorem kind_of_rest_nil {l : Lexer} (h : l.rest = []) : l.kind = .eof := by
  rw [kind_eq_eof_iff, body, h, List.drop_nil]

theorem torn_cases {l : Lexer} (ht : l.Torn) :
    AtOpenComment l ∨ l.mode = .mataBrace ∧ l.kind = .mataContent ∧ ∀ mode, (l.next mode).kind = .eof := by
  obtain ⟨h, hk, hnil⟩ := ht
  obtain ⟨-, hended⟩ := body_extend h []
  have hall := l.takesAll_iff.mpr ⟨hk, hnil⟩
  rcases Mode.kind_of_takesAll hended hall with ⟨-, hk⟩ | ⟨hm, hk⟩
  · refine .inl ⟨hk, Bool.eq_false_iff.mpr fun hterminated => ?_⟩
    -- the comment is all that is left, and it cannot end in both a star and a line feed
    have htext : l.ahead.text = l.body := hall.1
    rw [htext, Lexeme.isTerminatedBlockComment, Bool.and_eq_true, List.isSuffixOf_iff_suffix] at hterminated
    obtain ⟨before, hbefore⟩ := hterminated.2
    rw [LineEnded, ← hbefore] at hended
    simp at hended
  · exact .inr ⟨hm, hk, fun mode => kind_of_rest_nil hnil⟩

theorem not_torn_of_word {l : Lexer} (hw : l.IsWord) : ¬ l.Torn := by
  intro ht
  unfold IsWord at hw
  rcases torn_cases ht with ⟨hk, -⟩ | ⟨-, hk, -⟩
  all_goals
    rw [hk] at hw
    exact absurd hw (by decide)

theorem lineEnded_after_word {l : Lexer} (h : LineEnded l.rest) (hw : l.IsWord) : LineEnded l.after :=
  lineEnded_after h fun hn => not_torn_of_word hw ⟨h, fun hb => hw.not_endsLine (.inl hb), hn⟩

end Lexer

def Problem.ofOpenText : List Problem :=
  [.missingProgramEnd, .missingMataEnd, .missingMataBrace, .unterminatedBlockComment]

def Transport.extend (more : List Char) : Transport where
  map := Lexer.extend more
  shift := id
  Near l := LineEnded l.rest
  Torn := Lexer.Torn
  Spent l := l.rest = []
  Bad p := p ∈ Problem.ofOpenText
  shift_le h := h
  near_relex h _ := h
  map_relex _ _ := rfl
  kind_map h := Lexer.kind_extend h more
  start_map {l} h := by
    rw [Token.start, Token.start]
    exact congrArg (l.offset + byteSize ·) (Lexer.leading_extend h more)
  stop_map h ht := congrArg Token.stop (Lexer.ahead_extend h ht more)
  isTerminated_map h ht _ := by rw [Lexer.ahead_extend h ht more]
  text_map h hw := by rw [Lexer.ahead_extend h (Lexer.not_torn_of_word hw) more]
  prefixApplies_map h hw := by
    rw [Lexer.after_extend h (Lexer.not_torn_of_word hw) more]
    exact Grammar.prefixApplies_sameLine ((Lexer.lineEnded_after_word h hw).sameLine more)
  atProgramSubcommand_map h hw := by
    rw [Lexer.after_extend h (Lexer.not_torn_of_word hw) more]
    exact Grammar.atProgramSubcommand_sameLine ((Lexer.lineEnded_after_word h hw).sameLine more)
  map_next h ht _ mode := by
    rw [Lexer.next, Lexer.next, Lexer.ahead_extend h ht more, Lexer.after_extend h ht more]
    rfl
  near_next h ht _ hk _ := Lexer.lineEnded_after h fun hn => ht ⟨h, hk, hn⟩
  near_or_spent {l} h _ _ := by
    by_cases hn : l.after = []
    · exact .inr hn
    · exact .inl (Lexer.lineEnded_after h hn)
  kind_of_spent h := Lexer.kind_of_rest_nil h
  torn_cases := Lexer.torn_cases
  bad_of_torn _ := by decide
  bad_of_spent _ := by decide

end Dofile
