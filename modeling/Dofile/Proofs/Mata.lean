import Dofile.Grammar.Mata
import Dofile.Proofs.Argument

/-!
# Readings of mata blocks

A mata block is in braces, of several lines or on the keyword's line, as its
opening tells.
-/

namespace Dofile.Reading

/-- A block with what `R` reads before its `end`, or before the end of the text where it
is given up. -/
def ended (kind : Kind) (problem : Problem) (R : Reading) (hk : kind.isNode = true := by decide) : Reading :=
  (givenUp kind problem (fun l _ => l.ahead.span) (R.upTo (·.kind = .eof)) hk).or
    (node kind ((R.upTo (·.kind ≠ .eof)).seq
      ((word .endKeyword .statement Kind.endKeyword_mem_wordLabels).seq trailingComments)) hk)

section
variable {kind : Kind} {problem : Problem} {R : Reading} {hk : kind.isNode = true}

theorem Moves.ended (h : R.Moves) : (ended kind problem R hk).Moves :=
  ((h.upTo _).givenUp _ _ hk).or (((h.upTo _).seq _).node hk)

theorem leads_of_ended {l l' : Lexer} {items : List Item} (h : (ended kind problem R hk).leads l items l') :
    ∃ is m, R.leads l is m := by
  rcases h with ⟨is, ⟨hR, -⟩, -⟩ | ⟨_, ⟨is, m, _, ⟨hR, -⟩, -⟩, -⟩
  · exact ⟨is, l', hR⟩
  · exact ⟨is, m, hR⟩

theorem TotalOn.ended {c : Lexer → Prop} (h : R.TotalOn c)
    (hword : ∀ {l is m}, R.leads l is m → m.kind ≠ .eof → m.IsWord) :
    (ended kind problem R hk).TotalOn c := fun l hl => by
  obtain ⟨is, m, hR⟩ := h l hl
  by_cases hm : m.kind = .eof
  · exact ⟨_, m, .inl ⟨is, ⟨hR, hm⟩, span_ordered l, rfl⟩⟩
  · obtain ⟨js, l', hc⟩ := total_trailingComments (m.next .statement)
    exact ⟨_, l', .inr ⟨_, ⟨is, m, _, ⟨hR, hm⟩, ⟨_, _, js, ⟨hword hR hm, rfl, rfl⟩, hc, rfl⟩, rfl⟩, rfl⟩⟩

theorem Computes.ended {rule : Run → Run} (h : R.Computes rule) :
    (ended kind problem R hk).Computes fun s =>
      if (rule s.start).isAt .eof then ((rule s.start).reportAt problem s.ahead.span).closeInError s.mark kind
      else (Grammar.trailingComments ((rule s.start).takeAs .endKeyword .statement)).close s.mark kind := by
  intro s _ l' h
  obtain ⟨is, ⟨hR, hm⟩, hspan, rfl⟩ | ⟨_, ⟨is, m, _, ⟨hR, hm⟩, hend, rfl⟩, rfl⟩ := h
  all_goals have hbody : rule s.start = s.start.emit is _ := h (s := s.start) hR
  · simp only [hbody]
    rw [if_pos ((Run.isAt_iff _ _).mpr hm), Run.ahead, Run.reportAt_emit (s.start.emit is l') problem hspan,
      Run.emit_emit]
    exact Run.closeInError_emit ..
  · have htail := ((computes_word .endKeyword .statement (by decide)).seq computes_trailingComments)
      (s := s.start.emit is m) hend
    simp only at htail
    simp only [hbody]
    rw [if_neg (by rw [Run.isAt_iff]; exact hm), htail, Run.emit_emit]
    exact Run.close_emit ..

end

def mataOpening : Reading := (word .mataKeyword .mataHead).seq (eat .colon .mataHead)

def mataBraces : Reading :=
  delimited .mataBlock .rightBrace .missingMataBrace (fun l _ => l.ahead.span) .statement
    ((mataOpening.upTo (·.kind = .leftBrace)).seq ((take .mataBrace).seq (eat .mataContent .mataBrace)))

def MataEnds (l : Lexer) : Prop := l.kind = .eof ∨ l.kind = .controlKeyword

def mataLines : Reading :=
  ended .mataBlock .missingMataEnd ((mataOpening.upTo Lexer.EndsLine).seq (many MataEnds (take .mataLine)))

def mataInline : Reading :=
  node .mataBlock ((mataOpening.upTo fun l => l.kind ≠ .leftBrace ∧ ¬ l.EndsLine).seq (take .statement))

def mataBlock : Reading := mataBraces.or (mataLines.or mataInline)

theorem moves_mataOpening : mataOpening.Moves := (moves_word _ _ _).seq _

theorem moves_mataBlock : mataBlock.Moves :=
  Moves.or ((moves_mataOpening.upTo _).seq _).delimited
    (((moves_mataOpening.upTo _).seq _).ended.or (((moves_mataOpening.upTo _).seq _).node _))

theorem total_mataOpening : mataOpening.TotalOn Lexer.IsWord :=
  (total_word _ _ _).seq (total_eat (by decide) _)

/-- A block's opening decides its form. -/
theorem total_mataBlock : mataBlock.TotalOn Lexer.IsWord := fun l hl => by
  obtain ⟨is, m, hopen⟩ := total_mataOpening l hl
  by_cases hb : m.kind = .leftBrace
  · obtain ⟨js, m', hcontent⟩ := @total_eat .mataContent (by decide) .mataBrace (m.next .mataBrace)
    have hbody : ((mataOpening.upTo (·.kind = .leftBrace)).seq
        ((take .mataBrace).seq (eat .mataContent .mataBrace))).TotalOn (· = l) := by
      intro _ e
      subst e
      exact ⟨_, m', is, m, _, ⟨hopen, hb⟩, ⟨_, _, js, ⟨hb ▸ by decide, rfl, rfl⟩, hcontent, rfl⟩, rfl⟩
    have hbraces : mataBraces.TotalOn (· = l) := hbody.delimited (by decide) fun _ => span_ordered _
    obtain ⟨items, l', h⟩ := hbraces l rfl
    exact ⟨items, l', .inl h⟩
  by_cases he : m.EndsLine
  · have hmany : (many MataEnds (take .mataLine)).Total :=
      total_many ((total_take _).mono fun _ h he => h (.inl he)) (moves_take _)
    obtain ⟨js, m', hlines⟩ := hmany m
    have hbody : ((mataOpening.upTo Lexer.EndsLine).seq (many MataEnds (take .mataLine))).TotalOn (· = l) := by
      intro _ e
      subst e
      exact ⟨is ++ js, m', is, m, js, ⟨hopen, he⟩, hlines, rfl⟩
    have hblock : mataLines.TotalOn (· = l) := hbody.ended (by
      intro _ _ m ⟨_, _, _, _, hmany, _⟩ hm
      have hk : m.kind = .controlKeyword := (stops_of_many hmany).resolve_left hm
      rw [Lexer.IsWord, hk]
      decide)
    obtain ⟨items, l', h⟩ := hblock l rfl
    exact ⟨items, l', .inr (.inl h)⟩
  · exact ⟨_, _, .inr (.inr ⟨_, ⟨is, m, _, ⟨hopen, hb, he⟩, ⟨Lexer.ne_eof_of_not_endsLine he, rfl, rfl⟩, rfl⟩, rfl⟩)⟩

/-! ## Rules -/

def openMata (s : Run) : Run :=
  let s := s.takeAs .mataKeyword .mataHead
  if s.isAt .colon then s.takeIn .mataHead else s

theorem computes_mataOpening : mataOpening.Computes openMata :=
  (computes_word _ _ _).seq (computes_eat .colon .mataHead)

theorem computes_mataBraces : mataBraces.Computes fun s =>
    Grammar.mataBraces s.mark s.ahead.span (openMata s.start) := by
  intro s items l' h
  have hbody := (computes_mataOpening.upTo (·.kind = .leftBrace)).seq
    ((computes_take .mataBrace).seq (computes_eat .mataContent .mataBrace))
  have hrule := hbody.delimited h
  simp only [Grammar.mataBraces]
  exact hrule

theorem computes_mataLines : mataLines.Computes fun s =>
    Grammar.mataLines s.mark s.ahead.span (openMata s.start) := by
  intro s items l' h
  have hends : ∀ s : Run, (!s.isAt .eof && !s.isAt .controlKeyword) = true ↔ ¬ MataEnds s.lexer := by
    intro s
    rw [MataEnds, ← Run.isAt_iff, ← Run.isAt_iff]
    simp
  have hbody := (computes_mataOpening.upTo Lexer.EndsLine).seq
    ((computes_take .mataLine).many (moves_take _) hends)
  have hrule := hbody.ended h
  simp only [Grammar.mataLines]
  exact hrule

theorem computes_mataInline : mataInline.Computes fun s => (openMata s.start).take.close s.mark .mataBlock := by
  intro s _ l' h
  obtain ⟨is, h, rfl⟩ := h
  have hbody := ((computes_mataOpening.upTo _).seq (computes_take .statement)) (s := s.start) h
  show (openMata s.start |>.takeIn .statement).close s.mark .mataBlock = _
  simp only at hbody
  rw [hbody]
  exact Run.close_emit ..

theorem isAt_openMata {s : Run} {is : List Item} {m : Lexer} (h : mataOpening.leads s.lexer is m) (k : Kind) :
    (openMata s.start).isAt k = true ↔ m.kind = k := by
  rw [computes_mataOpening (s := s.start) h, Run.isAt_iff, Run.emit_lexer]

theorem atLineEnd_openMata {s : Run} {is : List Item} {m : Lexer} (h : mataOpening.leads s.lexer is m) :
    (openMata s.start).atLineEnd = true ↔ m.EndsLine := by
  rw [computes_mataOpening (s := s.start) h, Run.atLineEnd_iff, Run.emit_lexer]

theorem mataBlock_eq (s : Run) : Grammar.mataBlock s =
    if (openMata s.start).isAt .leftBrace then Grammar.mataBraces s.mark s.ahead.span (openMata s.start)
    else if (openMata s.start).atLineEnd then Grammar.mataLines s.mark s.ahead.span (openMata s.start)
    else (openMata s.start).take.close s.mark .mataBlock := rfl

theorem computes_mataBlock : mataBlock.Computes Grammar.mataBlock := by
  intro s items l' h
  obtain h | h | h := h
  all_goals rw [mataBlock_eq]
  · obtain ⟨_, _, _, _, _, ⟨ho, hb⟩, -⟩ := leads_of_delimited h
    rw [if_pos ((isAt_openMata ho _).mpr hb)]
    exact computes_mataBraces h
  · obtain ⟨_, _, _, m, _, ⟨ho, he⟩, -⟩ := leads_of_ended h
    have hb : ¬ (openMata s.start).isAt .leftBrace = true := by
      rw [isAt_openMata ho]
      rcases he with he | he <;> rw [he] <;> decide
    rw [if_neg hb, if_pos ((atLineEnd_openMata ho).mpr he)]
    exact computes_mataLines h
  · have ⟨_, ⟨_, _, _, ⟨ho, hb, he⟩, _⟩, _⟩ := h
    rw [if_neg (by rw [isAt_openMata ho]; exact hb), if_neg (by rw [atLineEnd_openMata ho]; exact he)]
    exact computes_mataInline h

end Dofile.Reading
