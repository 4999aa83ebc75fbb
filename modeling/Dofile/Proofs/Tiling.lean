import Dofile.Proofs.Account

/-!
# Tilings

Spans tile a stretch of a text if each one begins where the one before it ends. Whatever
a lexer is asked for, and in whatever modes, the tokens that it returns tile the text
from the beginning up to the token ahead.
-/

namespace Dofile

/-- Of two places that cut a text, what stands before the first one begins what stands before the other. -/
theorem exists_between {a b c d : List Char} (h : a ++ b = c ++ d) (hle : byteSize a ≤ byteSize c) :
    ∃ x, c = a ++ x ∧ b = x ++ d := by
  rcases List.append_eq_append_iff.mp h with ⟨x, rfl, rfl⟩ | ⟨x, rfl, rfl⟩
  · exact ⟨x, rfl, rfl⟩
  · obtain rfl : x = [] := by
      rw [byteSize_append] at hle
      exact (Builder.byteSize_eq_zero_iff x).mp (by omega)
    exact ⟨[], by simp, by simp⟩

/-- Whether spans follow each other without a gap from one offset to another. -/
def Tiles : Nat → List Span → Nat → Prop
  | start, [], stop => start = stop
  | start, s :: ss, stop => s.start = start ∧ Tiles s.stop ss stop

theorem Tiles.append {ts : List Span} {mid stop : Nat} : ∀ {start : Nat} {ss : List Span},
    Tiles start ss mid → Tiles mid ts stop → Tiles start (ss ++ ts) stop
  | _, [], h, h' => h ▸ h'
  | _, _ :: _, h, h' => ⟨h.1, h.2.append h'⟩

theorem Tiles.start_head {start stop : Nat} {s : Span} {ss : List Span} (h : Tiles start ss stop)
    (hs : ss.head? = some s) : s.start = start := by
  cases ss with
  | nil => cases hs
  | cons s' ss =>
    cases hs
    exact h.1

theorem Tiles.stop_getLast {stop : Nat} {s : Span} : ∀ {start : Nat} {ss : List Span}, Tiles start ss stop →
    ss.getLast? = some s → s.stop = stop
  | _, [_], h, hs => by
    cases hs
    exact h.2
  | _, _ :: _ :: _, h, hs => h.2.stop_getLast (by simpa using hs)

theorem Tiles.flatMap {α : Type} {f : α → Span} {g : α → List Span} {stop : Nat} :
    ∀ {start : Nat} {as : List α}, Tiles start (as.map f) stop →
      (∀ a ∈ as, Tiles (f a).start (g a) (f a).stop) → Tiles start (as.flatMap g) stop
  | _, [], h, _ => h
  | _, a :: _, h, hg => by
    obtain ⟨rfl, h⟩ := h
    exact (hg a (by simp)).append (h.flatMap fun b hb => hg b (List.mem_cons_of_mem a hb))

namespace Token

def fullSpan (t : Token) : Span := ⟨t.offset, t.stop⟩

/-- What a token owes to the text that it was read in. Its blanks and its own text can be cut
out, so none of its ends lies within a character. -/
structure Sound (text : List Char) (t : Token) : Prop where
  slice_leading : (Span.mk t.offset t.start).slice? text = some t.leading
  slice_span : t.span.slice? text = some t.text
  blanks : ∀ c ∈ t.leading, isBlank c = true
  nonempty : t.kind ≠ .eof → t.start < t.stop
  eof_iff : t.kind = .eof ↔ (cutBytes t.offset text).map Prod.snd = some t.leading
  eof_stop : t.kind = .eof → t.stop = byteSize text

end Token

namespace Lexer

theorem start_lt_stop {l : Lexer} (h : l.kind ≠ .eof) : l.ahead.start < l.ahead.stop := by
  have htext : l.ahead.text ≠ [] := fun hn => h (l.text_eq_nil_iff.mp hn)
  have hlength := List.length_pos_iff.mpr htext
  have hsize := length_le_byteSize l.ahead.text
  unfold Token.stop
  omega

theorem rest_eq_leading_iff (l : Lexer) : l.rest = l.leading ↔ l.kind = .eof := by
  rw [kind_eq_eof_iff]
  conv => lhs; lhs; rw [← l.leading_append_body]
  simp

theorem Stands.cut {text : List Char} {l : Lexer} (h : l.Stands text) :
    ∃ before, cutBytes l.offset text = some (before, l.rest) ∧ l.offset = byteSize before := by
  obtain ⟨before, rfl, hoffset, -⟩ := h
  exact ⟨before, by rw [hoffset, cutBytes_byteSize], hoffset⟩

theorem Stands.sound {text : List Char} {l : Lexer} (h : l.Stands text) : l.ahead.Sound text := by
  obtain ⟨before, hcut, hoffset⟩ := h.cut
  obtain ⟨htext, -⟩ := cutBytes_eq_some hcut
  have hat : l.ahead.offset = l.offset := rfl
  refine ⟨h.slice_leading, h.slice_span, fun c hc => isBlank_of_mem_leading hc, start_lt_stop, ?_, fun he => ?_⟩
  · rw [hat, hcut, Option.map_some, Option.some.injEq]
    exact (l.rest_eq_leading_iff).symm
  · have hempty : l.ahead.text = [] := l.text_eq_nil_iff.mpr he
    have hrest : l.rest = l.ahead.leading := l.rest_eq_leading_iff.mpr he
    rw [Token.stop, Token.start, hempty, ← htext, byteSize_append, hrest, hat, hoffset]
    rfl

/-! ## Steps in any modes -/

inductive Step where
  | next (mode : Mode)
  | relex (mode : Mode)

def run : List Step → Lexer → List Token × Lexer
  | [], l => ([], l)
  | .next mode :: steps, l =>
    let (tokens, l') := run steps (l.next mode)
    (l.ahead :: tokens, l')
  | .relex mode :: steps, l => run steps (l.relex mode)

theorem run_stands {text : List Char} (steps : List Step) {l : Lexer} (h : l.Stands text) :
    (run steps l).2.Stands text ∧ ∀ t ∈ (run steps l).1, t.Sound text := by
  induction steps generalizing l with
  | nil => exact ⟨h, by simp [run]⟩
  | cons step steps ih =>
    cases step with
    | next mode =>
      obtain ⟨hend, htokens⟩ := ih (h.next mode)
      refine ⟨hend, fun t ht => ?_⟩
      rcases List.mem_cons.mp ht with rfl | ht
      · exact h.sound
      · exact htokens t ht
    | relex mode => exact ih (h.relex mode)

theorem run_tiles_from (steps : List Step) (l : Lexer) :
    Tiles l.offset ((run steps l).1.map Token.fullSpan) (run steps l).2.offset ∧
      (run steps l).1.flatMap Token.fullText ++ (run steps l).2.rest = l.rest := by
  induction steps generalizing l with
  | nil => exact ⟨rfl, rfl⟩
  | cons step steps ih =>
    cases step with
    | next mode =>
      obtain ⟨htiles, htext⟩ := ih (l.next mode)
      refine ⟨⟨rfl, htiles⟩, ?_⟩
      simp only [run, List.flatMap_cons, List.append_assoc]
      rw [htext, next_rest, fullText_append_after]
    | relex mode => exact ih (l.relex mode)

/-- Whatever steps a lexer takes, in whatever modes, the tokens that it returns tile the text from its
beginning up to where the token ahead begins with its blanks, and they are the text up to there. Each of
them, and the token ahead, lies between characters of the text, is empty only at the end of the text, and
is the end of the text exactly if nothing but its own blanks is left. -/
theorem run_tiles (text : List Char) (steps : List Step) :
    let tokens := (run steps (ofText text)).1
    let l := (run steps (ofText text)).2
    Tiles 0 (tokens.map Token.fullSpan) l.ahead.offset ∧ tokens.flatMap Token.fullText ++ l.rest = text ∧
      l.ahead.Sound text ∧ ∀ t ∈ tokens, t.Sound text := by
  obtain ⟨htiles, htext⟩ := run_tiles_from steps (ofText text)
  obtain ⟨hstands, hsound⟩ := run_stands steps (stands_ofText text)
  exact ⟨htiles, htext, hstands.sound, hsound⟩

end Lexer

end Dofile
