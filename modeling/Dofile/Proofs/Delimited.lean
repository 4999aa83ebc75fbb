import Dofile.Proofs.Nesting
import Dofile.Proofs.Reading

/-!
# Readings of strings and macro references

A construct is read from its opener to its closer, or up to where it is given up.
Constructs nest without bound, so the reading of one is the union of its readings
of every height.
-/

namespace Dofile

theorem Family.isNode_kindAt (family : Family) (depth : Nat) : (family.kindAt depth).isNode = true := by
  cases family with
  | localMacro => exact (show ∀ label, (Kind.localMacro label).isNode = true by decide) _
  | compoundString => exact (show ∀ label, (Kind.compoundString label).isNode = true by decide) _

namespace Reading

/-! ## Closers -/

/-- A construct with what `R` reads as its opener and its content. Behind it the text is
read in the mode `outer`. -/
def delimited (kind closer : Kind) (problem : Problem) (span : Lexer → Lexer → Span) (outer : Mode)
    (R : Reading) (hk : kind.isNode = true := by decide) : Reading :=
  (node kind ((R.upTo (·.kind = closer)).seq (take outer)) hk).or
    ((givenUp kind problem span (R.upTo (·.kind ≠ closer)) hk).seq (relex outer))

section
variable {kind closer : Kind} {problem : Problem} {span : Lexer → Lexer → Span} {outer : Mode}
  {R : Reading} {hk : kind.isNode = true}

theorem Moves.delimited (h : R.Moves) : (delimited kind closer problem span outer R hk).Moves :=
  (((h.upTo _).seq _).node hk).or (((h.upTo _).givenUp problem span hk).seq _)

/-- A construct is closed by its closer, or it is given up where something else is ahead. -/
theorem delimited_cases {l l' : Lexer} {items : List Item}
    (h : (delimited kind closer problem span outer R hk).leads l items l') :
    (∃ is m, R.leads l is m ∧ m.kind = closer ∧ items = [.node kind (is ++ [m.item])] ∧ l' = m.next outer) ∨
      ∃ is m, R.leads l is m ∧ m.kind ≠ closer ∧
        items = [.enclosed kind (is ++ [.found ⟨problem, span l m⟩])] ∧ l' = m.relex outer := by
  rcases h with ⟨_, ⟨is, m, _, ⟨hR, hm⟩, ⟨-, rfl, rfl⟩, rfl⟩, rfl⟩ | ⟨_, m, _, ⟨is, ⟨hR, hm⟩, -, rfl⟩, ⟨rfl, rfl⟩, rfl⟩
  · exact .inl ⟨is, m, hR, hm, rfl, rfl⟩
  · exact .inr ⟨is, m, hR, hm, rfl, rfl⟩

theorem leads_of_delimited {l l' : Lexer} {items : List Item}
    (h : (delimited kind closer problem span outer R hk).leads l items l') : ∃ is m, R.leads l is m := by
  rcases delimited_cases h with ⟨is, m, hR, -⟩ | ⟨is, m, hR, -⟩
  · exact ⟨is, m, hR⟩
  · exact ⟨is, m, hR⟩

theorem TotalOn.delimited {c : Lexer → Prop} (h : R.TotalOn c) (hcloser : closer ≠ .eof)
    (hspan : ∀ {l is m}, R.leads l is m → (span l m).start ≤ (span l m).stop) :
    (delimited kind closer problem span outer R hk).TotalOn c := fun l hl => by
  obtain ⟨is, m, hR⟩ := h l hl
  by_cases hm : m.kind = closer
  · exact ⟨_, m.next outer, .inl ⟨_, ⟨is, m, _, ⟨hR, hm⟩, ⟨hm ▸ hcloser, rfl, rfl⟩, rfl⟩, rfl⟩⟩
  · exact ⟨_, m.relex outer, .inr ⟨_, m, _, ⟨is, ⟨hR, hm⟩, hspan hR, rfl⟩, ⟨rfl, rfl⟩, rfl⟩⟩

theorem Computes.delimited {rule : Run → Run} (h : R.Computes rule) :
    (delimited kind closer problem span outer R hk).Computes fun s =>
      if (rule s.start).isAt closer then ((rule s.start).takeIn outer).close s.mark kind
      else Grammar.unterminated (rule s.start) s.mark kind (span s.lexer (rule s.start).lexer) problem
        outer := by
  intro s _ _ h
  obtain ⟨_, ⟨is, m, _, ⟨hR, hm⟩, ⟨he, rfl, rfl⟩, rfl⟩, rfl⟩ |
    ⟨_, m, _, ⟨is, ⟨hR, hm⟩, hspan, rfl⟩, ⟨rfl, rfl⟩, rfl⟩ := h
  all_goals
    have hbody : rule s.start = s.start.emit is m := h (s := s.start) hR
    simp only [hbody]
  · rw [if_pos ((Run.isAt_iff _ _).mpr hm), Run.takeIn_emit (s := s.start.emit is m) he, Run.emit_emit]
    exact Run.close_emit ..
  · rw [if_neg (by rw [Run.isAt_iff]; exact hm), Grammar.unterminated]
    simp only [Run.emit_lexer]
    rw [Run.reportAt_emit _ _ hspan, Run.relex_emit, Run.emit_emit, Run.emit_emit, Run.emit_emit,
      List.append_nil, List.append_nil]
    exact Run.closeInError_emit ..

end

/-! ## Global macro references -/

def bracedName : Reading :=
  either (·.kind = .ident) (take .globalMacro)
    (either (·.kind = .rightBrace) (report .expectedGlobalMacroName) skip)

def bracedMacro (outer : Mode) : Reading :=
  delimited .globalMacro .rightBrace .unterminatedGlobalMacro (fun l m => ⟨l.ahead.start, m.ahead.start⟩)
    outer (((take .globalMacro).upTo (·.kind = .leftBrace)).seq ((take .globalMacro).seq bracedName))

def plainMacro (outer : Mode) : Reading :=
  node .globalMacro (((take .globalMacro).upTo (·.kind = .ident)).seq (take outer))

def namelessMacro (outer : Mode) : Reading :=
  (givenUp .globalMacro .expectedGlobalMacroName (fun _ m => m.ahead.span)
    ((take .globalMacro).upTo fun m => m.kind ≠ .ident ∧ m.kind ≠ .leftBrace)).seq (relex outer)

def globalMacro (outer : Mode) : Reading :=
  ((plainMacro outer).or ((bracedMacro outer).or (namelessMacro outer))).when (·.kind = .dollar)

theorem start_le_next_start (l : Lexer) (mode : Mode) : l.ahead.start ≤ (l.next mode).ahead.start :=
  Nat.le_trans (Nat.le_add_right ..) (Nat.le_add_right (l.next mode).offset _)

theorem moves_globalMacro (outer : Mode) : (globalMacro outer).Moves :=
  Moves.when (Moves.or ((((moves_take _).upTo _).seq _).node _)
    (Moves.or (Moves.delimited (((moves_take _).upTo _).seq _))
      ((((moves_take _).upTo _).givenUp _ _ _).seq _))) _

theorem total_bracedName : bracedName.Total :=
  Total.either ((total_take _).mono fun l h => h ▸ by decide)
    (TotalOn.either ((total_report _).on _) (total_skip.on _))

/-- The name in braces stands behind the brace. -/
theorem start_le_of_bracedName {l m : Lexer} {items : List Item} (h : bracedName.leads l items m) :
    l.ahead.start ≤ m.ahead.start := by
  rcases h with ⟨-, -, -, rfl⟩ | ⟨-, ⟨-, -, rfl⟩ | ⟨-, -, rfl⟩⟩
  · exact start_le_next_start ..
  · exact Nat.le_refl _
  · exact Nat.le_refl _

theorem total_globalMacro (outer : Mode) : (globalMacro outer).TotalOn (·.kind = .dollar) := fun l hl => by
  have he : l.kind ≠ .eof := hl ▸ by decide
  -- what stands right behind the dollar sign decides between the three forms
  by_cases hn : (l.next .globalMacro).kind = .ident
  · have hopen : ((take .globalMacro).upTo (·.kind = .ident)).leads l [l.item] (l.next .globalMacro) :=
      ⟨⟨he, rfl, rfl⟩, hn⟩
    exact ⟨_, _, hl, .inl ⟨_, ⟨_, _, _, hopen, ⟨hn ▸ by decide, rfl, rfl⟩, rfl⟩, rfl⟩⟩
  by_cases hb : (l.next .globalMacro).kind = .leftBrace
  · have hopen : ((take .globalMacro).upTo (·.kind = .leftBrace)).leads l [l.item] (l.next .globalMacro) :=
      ⟨⟨he, rfl, rfl⟩, hb⟩
    have hbody : ((take .globalMacro).upTo (·.kind = .leftBrace)).seq ((take .globalMacro).seq bracedName)
        |>.TotalOn (· = l) := by
      intro _ e
      subst e
      obtain ⟨js, m, hname⟩ := total_bracedName ((Lexer.next _ .globalMacro).next .globalMacro)
      exact ⟨_, m, _, _, _, hopen, ⟨_, _, js, ⟨hb ▸ by decide, rfl, rfl⟩, hname, rfl⟩, rfl⟩
    have hmacro : (bracedMacro outer).TotalOn (· = l) := hbody.delimited (by decide) (by
      intro l _ m h
      obtain ⟨_, _, _, ⟨⟨-, -, rfl⟩, -⟩, ⟨_, _, _, ⟨-, -, rfl⟩, hname, -⟩, -⟩ := h
      exact Nat.le_trans (start_le_next_start l .globalMacro)
        (Nat.le_trans (start_le_next_start _ .globalMacro) (start_le_of_bracedName hname)))
    obtain ⟨items, l', h⟩ := hmacro l rfl
    exact ⟨items, l', hl, .inr (.inl h)⟩
  · have hopen : ((take .globalMacro).upTo fun m => m.kind ≠ .ident ∧ m.kind ≠ .leftBrace).leads l
        [l.item] (l.next .globalMacro) := ⟨⟨he, rfl, rfl⟩, hn, hb⟩
    exact ⟨_, _, hl, .inr (.inr ⟨_, _, _, ⟨_, hopen, Nat.le_add_right .., rfl⟩, ⟨rfl, rfl⟩, rfl⟩)⟩

theorem computes_bracedName : bracedName.Computes fun s =>
    if s.isAt .ident then s.takeIn .globalMacro
    else if s.isAt .rightBrace then s.report .expectedGlobalMacroName
    else s :=
  (computes_take _).either ((computes_report _).either computes_skip (Run.isAt_iff · _)) (Run.isAt_iff · _)

theorem bracedMacro_kind {outer : Mode} {l l' : Lexer} {items : List Item}
    (h : (bracedMacro outer).leads l items l') : (l.next .globalMacro).kind = .leftBrace := by
  obtain ⟨_, _, _, _, _, ⟨⟨-, -, rfl⟩, hb⟩, -⟩ := leads_of_delimited h
  exact hb

theorem computes_globalMacro (outer : Mode) : (globalMacro outer).Computes (Grammar.globalMacro outer) := by
  intro s items l' ⟨hs, h⟩
  have hopen : s.start.takeIn .globalMacro =
      s.start.emit [s.lexer.item] (s.lexer.next .globalMacro) :=
    Run.takeIn_emit (s := s.start) (hs ▸ by decide) _
  have hat : ∀ k, (s.start.takeIn .globalMacro).isAt k = true ↔ (s.lexer.next .globalMacro).kind = k := by
    rw [hopen]
    exact Run.isAt_iff _
  simp only [Grammar.globalMacro, Run.expect_of_isAt hs]
  rcases h with ⟨_, ⟨_, _, _, ⟨⟨-, rfl, rfl⟩, hn⟩, ⟨he, rfl, rfl⟩, rfl⟩, rfl⟩ | h |
    ⟨_, _, _, ⟨_, ⟨⟨-, rfl, rfl⟩, hn, hb⟩, -, rfl⟩, ⟨rfl, rfl⟩, rfl⟩
  · have hname := Run.takeIn_emit (s := s.start.emit [s.lexer.item] (s.lexer.next .globalMacro)) he outer
    rw [if_pos ((hat _).mpr hn), hopen, hname, Run.emit_emit]
    exact Run.close_emit ..
  · have hb := bracedMacro_kind h
    have hbody := ((computes_take .globalMacro).upTo (·.kind = .leftBrace)).seq
      ((computes_take .globalMacro).seq computes_bracedName)
    have hrule := hbody.delimited h
    rw [if_neg (by rw [hat, hb]; decide), if_pos ((hat _).mpr hb)]
    exact hrule
  · rw [if_neg (fun h => hn ((hat _).mp h)), if_neg (fun h => hb ((hat _).mp h)), hopen, Run.report_emit,
      Run.relex_emit, Run.emit_emit, Run.emit_emit, List.append_nil, List.append_nil]
    exact Run.closeInError_emit ..

/-! ## Strings -/

def stringItem : Reading := either (·.kind = .dollar) (globalMacro .doubleString) (take .doubleString)

def StringEnds (l : Lexer) : Prop := l.kind = .doubleQuote ∨ l.EndsLine

def doubleString (outer : Mode) : Reading :=
  (delimited .doubleString .doubleQuote .unterminatedString (fun l _ => l.ahead.span) outer
    ((take .doubleString).seq (many StringEnds stringItem))).when (·.kind = .doubleQuote)

theorem moves_stringItem : stringItem.Moves := (moves_globalMacro _).either (moves_take _) _

theorem moves_doubleString (outer : Mode) : (doubleString outer).Moves :=
  ((moves_take _).seq _).delimited.when _

theorem total_stringItem : stringItem.TotalOn fun l => ¬ StringEnds l :=
  TotalOn.either ((total_globalMacro _).mono fun _ h => h.2)
    ((total_take _).mono fun _ h => Lexer.ne_eof_of_not_endsLine fun he => h.1 (.inr he))

theorem span_ordered (l : Lexer) : l.ahead.span.start ≤ l.ahead.span.stop := Nat.le_add_right ..

theorem total_doubleString (outer : Mode) : (doubleString outer).TotalOn (·.kind = .doubleQuote) :=
  fun l hl => by
    have hbody : ((take .doubleString).seq (many StringEnds stringItem)).TotalOn (·.kind = .doubleQuote) :=
      ((total_take _).mono fun l (h : l.kind = .doubleQuote) => h ▸ by decide).seq
        (total_many total_stringItem moves_stringItem)
    have hstring : (delimited .doubleString .doubleQuote .unterminatedString (fun l _ => l.ahead.span) outer
        ((take .doubleString).seq (many StringEnds stringItem))).TotalOn (·.kind = .doubleQuote) :=
      hbody.delimited (by decide) fun _ => span_ordered _
    obtain ⟨items, l', h⟩ := hstring l hl
    exact ⟨items, l', hl, h⟩

theorem computes_stringItem : stringItem.Computes Grammar.stringItem :=
  (computes_globalMacro _).either (computes_take _) (Run.isAt_iff · _)

theorem computes_doubleString (outer : Mode) :
    (doubleString outer).Computes (Grammar.doubleString outer) := by
  intro s items l' ⟨hs, h⟩
  have hends : ∀ s : Run, (!s.isAt .doubleQuote && !s.atLineEnd) = true ↔ ¬ StringEnds s.lexer := by
    intro s
    rw [StringEnds, ← Run.isAt_iff, ← Run.atLineEnd_iff]
    simp
  have hbody := (computes_take .doubleString).seq (computes_stringItem.many moves_stringItem hends)
  have hrule := hbody.delimited h
  simp only [Grammar.doubleString, Run.expect_of_isAt hs]
  exact hrule

/-! ## Nested constructs -/

def ContentEnds (family : Family) (l : Lexer) : Prop := l.kind = family.closer ∨ l.EndsLine

def contentItem (construct : Family → Nat → Mode → Reading) (family : Family) (depth : Nat) : Reading :=
  either (fun l => l.kind = .compoundOpen ∧ family = .compoundString)
    (construct .compoundString (depth + 1) family.mode) <|
  either (·.kind = .backtick) (construct .localMacro (family.innerMacroDepth depth) family.mode) <|
  either (·.kind = .dollar) (globalMacro family.mode) <|
  either (·.kind = .doubleQuote) (doubleString family.mode) (take family.mode)

def constructWith (contents : Family → Nat → Reading) (family : Family) (depth : Nat) (outer : Mode) :
    Reading :=
  (delimited (family.kindAt depth) family.closer family.problem (fun l _ => l.ahead.span) outer
    ((take family.mode).seq (contents family depth)) (family.isNode_kindAt depth)).when
      (·.kind = family.opener)

/-- The content of a construct in which others nest to less than a height. -/
def contentsTo : Nat → Family → Nat → Reading
  | 0, _, _ => none
  | height + 1, family, depth =>
    many (ContentEnds family) (contentItem (constructWith (contentsTo height)) family depth)

def construct (family : Family) (depth : Nat) (outer : Mode) : Reading :=
  any fun height => constructWith (contentsTo height) family depth outer

theorem moves_constructWith (contents : Family → Nat → Reading) (family : Family) (depth : Nat)
    (outer : Mode) : (constructWith contents family depth outer).Moves :=
  ((moves_take _).seq _).delimited.when _

theorem moves_construct (family : Family) (depth : Nat) (outer : Mode) :
    (construct family depth outer).Moves := by
  intro _ _ _ ⟨_, h⟩
  exact moves_constructWith _ family depth outer h

theorem moves_contentItem {construct : Family → Nat → Mode → Reading}
    (h : ∀ f d m, (construct f d m).Moves) (family : Family) (depth : Nat) :
    (contentItem construct family depth).Moves :=
  (h _ _ _).either ((h _ _ _).either ((moves_globalMacro _).either
    ((moves_doubleString _).either (moves_take _) _) _) _) _

/-- A construct is read where its content can be, from behind its opener. -/
theorem total_constructWith {contents : Family → Nat → Reading} {bound : Nat}
    (h : ∀ f d, (contents f d).TotalOn fun l => l.rest.length < bound) (family : Family) (depth : Nat)
    (outer : Mode) : (constructWith contents family depth outer).TotalOn fun l =>
      l.kind = family.opener ∧ l.rest.length < bound + 1 := fun l hl => by
  have hbody : ((take family.mode).seq (contents family depth)).TotalOn fun l =>
      l.kind = family.opener ∧ l.rest.length < bound + 1 :=
    TotalOn.seq_of ((total_take _).mono fun _ h => h.1 ▸ Grammar.opener_ne_eof family) (fun hl ht => by
      have := moves_take _ ht
      omega) (h family depth)
  obtain ⟨items, l', h⟩ := hbody.delimited (Grammar.closer_ne_eof family) (fun _ => span_ordered _) l hl
  exact ⟨items, l', hl.1, h⟩

theorem total_contentItem {construct : Family → Nat → Mode → Reading} {bound : Nat}
    (h : ∀ f d m, (construct f d m).TotalOn fun l => l.kind = f.opener ∧ l.rest.length < bound)
    (family : Family) (depth : Nat) :
    (contentItem construct family depth).TotalOn fun l => ¬ ContentEnds family l ∧ l.rest.length < bound :=
  TotalOn.either ((h _ _ _).mono fun _ h => ⟨h.2.1, h.1.2⟩) <|
    TotalOn.either ((h _ _ _).mono fun _ h => ⟨h.2, h.1.1.2⟩) <|
    TotalOn.either ((total_globalMacro _).mono fun _ h => h.2) <|
    TotalOn.either ((total_doubleString _).mono fun _ h => h.2) <|
    (total_take _).mono fun _ h => Lexer.ne_eof_of_not_endsLine fun he => h.1.1.1.1.1 (.inr he)

/-- Constructs nest to no greater height than there are characters. -/
theorem total_contentsTo : ∀ (height : Nat) (family : Family) (depth : Nat),
    (contentsTo height family depth).TotalOn fun l => l.rest.length < height
  | 0, _, _ => fun _ hl => absurd hl (Nat.not_lt_zero _)
  | height + 1, family, depth =>
    totalOn_many
      (total_contentItem (total_constructWith (total_contentsTo height)) family depth)
      (moves_contentItem (moves_constructWith _) family depth)

theorem total_construct (family : Family) (depth : Nat) (outer : Mode) :
    (construct family depth outer).TotalOn (·.kind = family.opener) := fun l hl => by
  obtain ⟨items, l', h⟩ :=
    total_constructWith (total_contentsTo l.rest.length) family depth outer l ⟨hl, Nat.lt_succ_self _⟩
  exact ⟨items, l', l.rest.length, h⟩

theorem computes_contentItem {construct : Family → Nat → Mode → Reading}
    {rule : Family → Nat → Mode → Run → Run} (h : ∀ f d m, (construct f d m).Computes (rule f d m))
    (family : Family) (depth : Nat) :
    (contentItem construct family depth).Computes (Grammar.contentItem rule family depth) :=
  (h _ _ _).either ((h _ _ _).either ((computes_globalMacro _).either
    ((computes_doubleString _).either (computes_take _) (Run.isAt_iff · _)) (Run.isAt_iff · _))
      (Run.isAt_iff · _)) fun s => by simp [Run.isAt_iff]

theorem computes_constructWith {contents : Family → Nat → Reading} {rule : Family → Nat → Run → Run}
    (h : ∀ f d, (contents f d).Computes (rule f d)) (family : Family) (depth : Nat) (outer : Mode) :
    (constructWith contents family depth outer).Computes (Grammar.constructWith rule family depth outer) := by
  intro s items l' ⟨hs, hd⟩
  have hbody := (computes_take family.mode).seq (h family depth)
  have hrule := hbody.delimited hd
  simp only [Grammar.constructWith, Run.expect_of_isAt hs]
  exact hrule

theorem contentEnds_iff (family : Family) (s : Run) :
    Grammar.contentEnds family s = true ↔ ContentEnds family s.lexer := by
  rw [ContentEnds, ← Run.isAt_iff, ← Run.atLineEnd_iff]
  simp [Grammar.contentEnds]

/-- Item by item, the content is what the recursion reads. -/
theorem computes_contents {item : Reading} {family : Family} {depth : Nat}
    (h : item.Computes (Grammar.contentItem Grammar.construct family depth)) :
    (many (ContentEnds family) item).Computes (Grammar.contents family depth) := by
  have hmany : ∀ {l items l'}, (many (ContentEnds family) item).leads l items l' → ∀ s : Run, s.lexer = l →
      Grammar.contents family depth s = s.emit items l' := by
    intro l items l' hmany
    induction hmany with
    | done he =>
      intro s e
      subst e
      rw [Grammar.contents_of_ends ((contentEnds_iff family s).mpr he)]
      exact s.emit_nil.symm
    | @more l m l' is js he first _ ih =>
      intro s e
      subst e
      have hne : Grammar.contentEnds family s = false :=
        Bool.eq_false_iff.mpr fun ht => he ((contentEnds_iff family s).mp ht)
      rw [Grammar.contents_of_not_ends hne, h first, ih (s.emit is m) rfl, Run.emit_emit]
  intro s items l' h'
  exact hmany h' s rfl

theorem computes_contentsTo : ∀ (height : Nat) (family : Family) (depth : Nat),
    (contentsTo height family depth).Computes (Grammar.contents family depth)
  | 0, _, _ => fun _ _ _ h => h.elim
  | height + 1, family, depth =>
    computes_contents (computes_contentItem
      (computes_constructWith (computes_contentsTo height)) family depth)

theorem computes_construct (family : Family) (depth : Nat) (outer : Mode) :
    (construct family depth outer).Computes (Grammar.construct family depth outer) := by
  intro s items l' ⟨height, h⟩
  exact computes_constructWith (computes_contentsTo height) family depth outer h

/-- A construct at the outermost level, read with the stack of frames. -/
theorem computes_nested (family : Family) (outer : Mode) :
    (construct family 1 outer).Computes (Grammar.nested family outer) := by
  intro s items l' h
  rw [Grammar.nested, Grammar.finishFrames_openFrame]
  exact computes_construct family 1 outer h

end Reading

end Dofile
