import Dofile.Proofs.Transport

/-!
# Transports of the rules

Every rule of the grammar is carried over, from strings and macro references up to
the lines of a text. A rule that starts within a line of the first text ends there or
at the beginning of the next line, and only behind the last line break can nothing be
left of it.
-/

namespace Dofile.Transport

open Reading

variable {K : Transport}

/-! ## Strings and macro references -/

section
variable {kind closer : Kind} {problem : Problem} {span : Lexer → Lexer → Span} {outer : Mode}
  {R : Reading} {hk : kind.isNode = true} {c d : Lexer → Prop}

theorem Carries.delimited (hopen : ¬ K.Bad problem → K.Carries c (R.upTo (·.kind ≠ closer)) (K.Within d))
    (hclosed : K.Carries c (R.upTo (·.kind = closer)) (K.Within (·.kind = closer)))
    (hcloser : closer ∉ Kind.acrossLines)
    (hspan : ∀ {l l'}, K.Within c l → K.Within d l' → span (K.map l) (K.map l') = (span l l').map K.shift) :
    K.Carries c (delimited kind closer problem span outer R hk) (K.Within (Lexer.SameIn outer)) :=
  ((hclosed.seq (carries_take_kind closer outer hcloser)).node hk).or
    ((Carries.givenUp hopen hspan hk).seq (carries_relex d outer))

theorem Carries.closed (h : K.Carries c R (K.Within d)) (hcloser : closer ∉ Kind.acrossLines)
    (hspan : ∀ {l l'}, K.Within c l → K.Within d l' → span (K.map l) (K.map l') = (span l l').map K.shift) :
    K.Carries c (Reading.delimited kind closer problem span outer R hk) (K.Within (Lexer.SameIn outer)) := by
  have hclosed := (h.upTo (keeps_kind closer)).within fun _ hl => hl.2
  have hopen := (h.upTo (keeps_kind closer).not).within fun _ hl => hl.1
  exact Carries.delimited (fun _ => hopen) hclosed hcloser hspan

/-- A construct whose problem is told of its opener. -/
theorem Carries.opened {opener : Kind} (h : K.Carries (·.kind = opener) R (K.Within d))
    (hopener : opener ∉ Kind.acrossLines) (hcloser : closer ∉ Kind.acrossLines) (p : Lexer → Prop) :
    K.Carries p ((Reading.delimited kind closer problem (fun l _ => l.ahead.span) outer R hk).when
      (·.kind = opener)) (K.Within (Lexer.SameIn outer)) := by
  refine ((h.closed hcloser fun hl _ => span_map hl.1 (not_torn_of_kind ?_)).of fun _ hl => hl.2).when (keeps_kind _)
  rw [hl.2]
  exact hopener

end

theorem carries_bracedName :
    K.Carries (Lexer.SameIn .globalMacro) bracedName (K.Within (Lexer.SameIn .globalMacro)) := by
  have hreport := carries_report (K := K) .expectedGlobalMacroName fun l (hl : l.SameIn .globalMacro) =>
    not_torn_of_sameIn hl (by decide) (by decide)
  exact ((carries_take_kind .ident .globalMacro (by decide)).of fun _ hl => hl.2).either
    ((hreport.of fun _ hl => hl.1.1).either ((carries_skip _).of fun _ hl => hl.1.1) (keeps_kind _))
    (keeps_kind _)

theorem carries_plainMacro (outer : Mode) :
    K.Carries (·.kind = .dollar) (plainMacro outer) (K.Within (Lexer.SameIn outer)) := by
  have hopen := (carries_take_kind (K := K) .dollar .globalMacro (by decide)).upTo (keeps_kind .ident)
  have hname := (carries_take_kind (K := K) .ident outer (by decide)).of
    fun l (hl : l.SameIn .globalMacro ∧ l.kind = .ident) => hl.2
  exact (hopen.seq hname).node _

theorem carries_bracedMacro (outer : Mode) :
    K.Carries (·.kind = .dollar) (bracedMacro outer) (K.Within (Lexer.SameIn outer)) := by
  have hopen := (carries_take_kind (K := K) .dollar .globalMacro (by decide)).upTo (keeps_kind .leftBrace)
  have hbrace := (carries_take_kind (K := K) .leftBrace .globalMacro (by decide)).of
    fun l (hl : l.SameIn .globalMacro ∧ l.kind = .leftBrace) => hl.2
  refine Carries.closed (hopen.seq (hbrace.seq carries_bracedName)) (by decide) fun hl hl' => ?_
  simp only [Span.map, K.start_map hl.1, K.start_map hl'.1]

theorem carries_namelessMacro (outer : Mode) :
    K.Carries (·.kind = .dollar) (namelessMacro outer) (K.Within (Lexer.SameIn outer)) := by
  have hopen := (carries_take_kind (K := K) .dollar .globalMacro (by decide)).upTo
    ((keeps_kind .ident).not.and (keeps_kind .leftBrace).not)
  refine (Carries.givenUp (fun _ => hopen) (fun _ hl' => ?_) _).seq (carries_relex _ outer)
  exact span_map hl'.1 (not_torn_of_sameIn hl'.2.1 (by decide) (by decide))

theorem carries_globalMacro (c : Lexer → Prop) (outer : Mode) :
    K.Carries c (globalMacro outer) (K.Within (Lexer.SameIn outer)) :=
  (((carries_plainMacro outer).or ((carries_bracedMacro outer).or (carries_namelessMacro outer))).of
    fun _ hl => hl.2).when (keeps_kind _)

theorem carries_stringItem :
    K.Carries (fun l => l.SameIn .doubleString ∧ ¬ StringEnds l) stringItem
      (K.Within (Lexer.SameIn .doubleString)) := by
  refine (carries_globalMacro _ _).either (carries_take _ fun l hl => ?_) (keeps_kind _)
  obtain ⟨⟨hsame, hends⟩, -⟩ := hl
  exact ⟨not_torn_of_sameIn hsame (by decide) (by decide), fun hn => hends (.inr (.inl hn))⟩

theorem carries_doubleString (c : Lexer → Prop) (outer : Mode) :
    K.Carries c (doubleString outer) (K.Within (Lexer.SameIn outer)) := by
  have hopen := carries_take_kind (K := K) .doubleQuote .doubleString (by decide)
  have hcontent := carries_stringItem.many (K := K) ((keeps_kind _).or keeps_endsLine)
  exact (hopen.seq hcontent).opened (by decide) (by decide) c

/-! ## Nested constructs -/

section
variable {nested : Family → Nat → Mode → Reading}
  (h : ∀ family depth outer c, K.Carries c (nested family depth outer) (K.Within (Lexer.SameIn outer)))
include h

theorem carries_contentItem (family : Family) (depth : Nat) :
    K.Carries (fun l => l.SameIn family.mode ∧ ¬ ContentEnds family l) (contentItem nested family depth)
      (K.Within (Lexer.SameIn family.mode)) := by
  have htake : K.Carries (fun l => l.SameIn family.mode ∧ ¬ ContentEnds family l) (take family.mode)
      (K.Within (Lexer.SameIn family.mode)) := by
    apply carries_take _; intro l hl
    obtain ⟨hsame, hends⟩ := hl
    have ht : ¬ K.Torn l := by
      refine not_torn_of_sameIn hsame ?_ ?_
      all_goals cases family <;> decide
    exact ⟨ht, fun hn => hends (.inr (.inl hn))⟩
  have hfamily : K.Keeps fun l => l.kind = .compoundOpen ∧ family = .compoundString :=
    fun l hl => and_congr_left' ((keeps_kind _) hl)
  exact (h _ _ _ _).either ((h _ _ _ _).either ((carries_globalMacro _ _).either
    ((carries_doubleString _ _).either (htake.of fun _ hl => hl.1.1.1.1) (keeps_kind _)) (keeps_kind _))
      (keeps_kind _)) hfamily

end

theorem carries_constructWith {contents : Family → Nat → Reading}
    (h : ∀ family depth, K.Carries (Lexer.SameIn family.mode) (contents family depth)
      (K.Within (Lexer.SameIn family.mode)))
    (family : Family) (depth : Nat) (outer : Mode) (c : Lexer → Prop) :
    K.Carries c (constructWith contents family depth outer) (K.Within (Lexer.SameIn outer)) := by
  have hopener : family.opener ∉ Kind.acrossLines := by cases family <;> decide
  have hcloser : family.closer ∉ Kind.acrossLines := by cases family <;> decide
  have hopen := carries_take_kind (K := K) family.opener family.mode hopener
  exact (hopen.seq (h family depth)).opened hopener hcloser c

theorem carries_contentsTo : ∀ (height : Nat) (family : Family) (depth : Nat),
    K.Carries (Lexer.SameIn family.mode) (contentsTo height family depth) (K.Within (Lexer.SameIn family.mode))
  | 0, _, _ => fun _ _ _ h => h.elim
  | height + 1, family, depth => by
    have hitem := carries_contentItem (carries_constructWith (carries_contentsTo height)) family depth
    exact (hitem.many ((keeps_kind _).or keeps_endsLine)).within fun _ hl => hl.1

theorem carries_construct (c : Lexer → Prop) (family : Family) (depth : Nat) (outer : Mode) :
    K.Carries c (construct family depth outer) (K.Within (Lexer.SameIn outer)) :=
  .any fun height => carries_constructWith (carries_contentsTo height) family depth outer c

/-! ## Open comments -/

def ReportsOpen (R : Reading) : Prop :=
  ∀ ⦃l items l'⦄, AtOpenComment l → R.leads l items l' →
    ∃ x ∈ Item.findingsAll items, x.problem = .unterminatedBlockComment

theorem kind_of_atOpenComment {l : Lexer} (h : AtOpenComment l) {k : Kind} (hk : k ≠ .blockComment) : l.kind ≠ k :=
  fun he => hk (he.symm.trans h.1)

section
variable {R S : Reading} {c p stops : Lexer → Prop} {D : Lexer → Prop}

theorem ReportsOpen.either (h : ReportsOpen S) (hp : ∀ l, AtOpenComment l → ¬ p l) : ReportsOpen (either p R S) := by
  intro l items l' ho hRS
  rcases hRS with hR | hS
  · exact absurd hR.1 (hp l ho)
  · exact h ho hS.2

theorem ReportsOpen.many (h : ReportsOpen R) (hs : ∀ l, AtOpenComment l → ¬ stops l) :
    ReportsOpen (many stops R) := by
  intro l items l' ho hmany
  cases hmany with
  | done hd => exact absurd hd (hs l ho)
  | more _ first _ =>
    obtain ⟨x, hx, hp⟩ := h ho first
    rw [Item.findingsAll_append]
    exact ⟨x, List.mem_append_left _ hx, hp⟩

/-- A repetition that stops at comments leaves them to what follows. -/
theorem ReportsOpen.after_many (h : ReportsOpen S) (hs : ∀ l, AtOpenComment l → stops l) :
    ReportsOpen ((Reading.many stops R).seq S) := by
  intro l items l' ho hRS
  obtain ⟨is, m, js, hmany, hS, rfl⟩ := hRS
  cases hmany with
  | done => exact h ho hS
  | more hne => exact absurd (hs l ho) hne

theorem reportsOpen_takeInError : ReportsOpen (takeInError .unterminatedBlockComment) := by
  intro l items l' _ h
  obtain ⟨_, ⟨_, _, js, ⟨rfl, -⟩, -, rfl⟩, rfl⟩ := h
  exact ⟨⟨.unterminatedBlockComment, l.ahead.span⟩, by simp [Item.findingsAll, Item.findings], rfl⟩

theorem reportsOpen_argument : ReportsOpen argument := by
  have hopen : ReportsOpen (Reading.either AtOpenComment (takeInError .unterminatedBlockComment)
      (Reading.either (·.kind = .unknown) (takeInError .unexpectedCharacter) (take .statement))) := by
    intro l items l' ho h
    rcases h with h | h
    · exact reportsOpen_takeInError ho h.2
    · exact absurd ho h.1
  refine ReportsOpen.either (.either (.either (.either hopen ?_) ?_) ?_) ?_
  all_goals exact fun l ho => kind_of_atOpenComment ho (by decide)

theorem reportsOpen_arguments : ReportsOpen arguments :=
  reportsOpen_argument.many fun _ ho he =>
    he.elim (kind_of_atOpenComment ho (by decide)) (kind_of_atOpenComment ho (by decide))

theorem reportsOpen_trailingComments : ReportsOpen trailingComments :=
  reportsOpen_argument.many fun _ ho hn => hn (.inr (.inr ho.1))

/-- Where nothing bad was found the comment ahead is whole. -/
theorem ReportsOpen.not_torn (h : ReportsOpen R) {l l' : Lexer} {items : List Item} (hR : R.leads l items l')
    (hclean : K.Clean items) (hl : l.SameIn .statement) : ¬ K.Torn l := by
  intro ht
  obtain ⟨x, hx, hp⟩ := h (atOpenComment_of_torn ht hl) hR
  exact hclean x hx (hp ▸ (K.bad_of_torn ht).1)

theorem Carries.report_seq (h : K.Carries c S D) (hS : ReportsOpen S) (hc : ∀ l, c l → l.SameIn .statement)
    (problem : Problem) : K.Carries c ((report problem).seq S) D := by
  intro l items l' hRS hclean hn hl
  have hreport := carries_report (K := K) problem fun l (h : c l ∧ ¬ K.Torn l) => h.2
  obtain ⟨is, m, js, ⟨rfl, rfl⟩, hrest, rfl⟩ := hRS
  have ht := hS.not_torn hrest (K.clean_append.mp hclean).2 (hc _ hl)
  exact hreport.seq (h.of fun _ hl => hl.1) ⟨_, _, js, ⟨rfl, rfl⟩, hrest, rfl⟩ hclean hn ⟨hl, ht⟩

/-- A choice at a comment without its end is the same where the comment is whole. -/
theorem Carries.either_open (h : K.Carries (fun l => c l ∧ ¬ K.Torn l) R D)
    (h' : K.Carries (fun l => c l ∧ ¬ K.Torn l) S D) (hR : ReportsOpen R)
    (hc : ∀ l, c l → l.SameIn .statement) : K.Carries c (Reading.either AtOpenComment R S) D := by
  intro l items l' hRS hclean hn hl
  -- a torn comment has no end here, so the first branch would have reported it
  have ht : ¬ K.Torn l := by
    rcases hRS with hopen | hwhole
    · exact hR.not_torn hopen.2 hclean (hc l hl)
    · exact fun ht => hwhole.1 (atOpenComment_of_torn ht (hc l hl))
  have hiff := atOpenComment_iff hn ht
  rcases hRS with hopen | hwhole
  · obtain ⟨⟨hR', htaken⟩, hl'⟩ := h hopen.2 hclean hn ⟨hl, ht⟩
    exact ⟨⟨.inl ⟨hiff.mpr hopen.1, hR'⟩, htaken⟩, hl'⟩
  · obtain ⟨⟨hS', htaken⟩, hl'⟩ := h' hwhole.2 hclean hn ⟨hl, ht⟩
    exact ⟨⟨.inr ⟨fun ho => hwhole.1 (hiff.mp ho), hS'⟩, htaken⟩, hl'⟩

end

/-! ## Arguments -/

def InLine (l : Lexer) : Prop := l.SameIn .statement ∧ ¬ l.EndsLine

theorem carries_takeInError (problem : Problem) :
    K.Carries (fun l => InLine l ∧ ¬ K.Torn l) (takeInError problem) (K.Within (Lexer.SameIn .statement)) := by
  have hreport := carries_report (K := K) problem fun l (hl : InLine l ∧ ¬ K.Torn l) => hl.2
  exact (hreport.seq (carries_take _ fun l hl => ⟨hl.2, fun hn => hl.1.2 (.inl hn)⟩)).node _

theorem carries_argument : K.Carries InLine argument (K.Within (Lexer.SameIn .statement)) := by
  have htake := carries_take (K := K) .statement fun l (hl : InLine l ∧ ¬ K.Torn l) =>
    ⟨hl.2, fun hn => hl.1.2 (.inl hn)⟩
  have hcomment := (carries_takeInError (K := K) .unterminatedBlockComment).either_open
    (((carries_takeInError .unexpectedCharacter).of fun _ hl => hl.1).either (htake.of fun _ hl => hl.1)
      (keeps_kind .unknown)) reportsOpen_takeInError fun l hl => hl.1
  exact (carries_doubleString _ _).either ((carries_construct _ _ _ _).either ((carries_construct _ _ _ _).either
    ((carries_globalMacro _ _).either (hcomment.of fun _ hl => hl.1.1.1.1) (keeps_kind _)) (keeps_kind _))
      (keeps_kind _)) (keeps_kind _)

theorem carries_arguments : K.Carries (Lexer.SameIn .statement) arguments (K.Within (Lexer.SameIn .statement)) :=
  (carries_argument.many keeps_endsLine).within fun _ hl => hl.1

theorem not_endsLine_of_atTrailingComment {l : Lexer} (h : AtTrailingComment l) : ¬ l.EndsLine := by
  intro he
  rcases h with hk | hk | hk
  all_goals
    unfold Lexer.EndsLine at he
    rw [hk] at he
    revert he
    decide

theorem carries_trailingComments :
    K.Carries (Lexer.SameIn .statement) trailingComments (K.Within (Lexer.SameIn .statement)) := by
  have hargument : K.Carries (fun l => l.SameIn .statement ∧ ¬ ¬ AtTrailingComment l) argument
      (K.Within (Lexer.SameIn .statement)) :=
    carries_argument.of fun l hl => ⟨hl.1, not_endsLine_of_atTrailingComment (Classical.not_not.mp hl.2)⟩
  exact (hargument.many ((keeps_kind _).or ((keeps_kind _).or (keeps_kind _))).not).within fun _ hl => hl.1

theorem carries_remnant : K.Carries (Lexer.SameIn .statement) remnant (K.Within (Lexer.SameIn .statement)) := by
  have herror := (carries_arguments (K := K)).report_seq reportsOpen_arguments (fun _ hl => hl) .expectedEndOfLine
  exact ((carries_skip _).of fun _ hl => hl.1).either ((herror.node _).of fun _ hl => hl.1) keeps_endsLine

/-- Where a line leads: to the next one, or to where nothing is left. -/
def Out (K : Transport) (l : Lexer) : Prop := K.Within (Lexer.SameIn .statement) l ∨ K.Spent l ∧ l.mode = .statement

theorem carries_endOfLine : K.Carries (Lexer.SameIn .statement) endOfLine K.Out := by
  have hbreak : K.Carries (Lexer.SameIn .statement) (eat .newline .statement) K.Out :=
    (carries_take_any .statement fun l hl => not_torn_of_endsLine (.inl hl.2)).either
      (((carries_skip _).of fun _ hl => hl.1).to fun _ => .inl) (keeps_kind _)
  exact carries_trailingComments.seq (carries_remnant.seq hbreak)

theorem carries_nameWord (c : Lexer → Prop) : K.Carries c nameWord (K.Within (Lexer.SameIn .statement)) :=
  (carries_word c _ _ _).node _

theorem Carries.name_seq {S : Reading} {D : Lexer → Prop} (h : K.Carries (Lexer.SameIn .statement) S D)
    (hS : ReportsOpen S) (problem : Problem) : K.Carries (Lexer.SameIn .statement) ((name problem).seq S) D :=
  ((carries_nameWord _).seq h).either_seq
    ((h.report_seq hS (fun _ hl => hl) problem).of fun _ hl => hl.1) keeps_isWord

/-! ## Blocks -/

section
variable {kind : Kind} {problem : Problem} {R S : Reading} {hk : kind.isNode = true}
  {c d stops : Lexer → Prop}

theorem Carries.ended (hopen : ¬ K.Bad problem → K.Carries Lexer.IsWord (R.upTo (·.kind = .eof)) (K.Within (·.kind = .eof)))
    (hclosed : K.Carries Lexer.IsWord (R.upTo (·.kind ≠ .eof)) (K.Within d)) :
    K.Carries Lexer.IsWord (ended kind problem R hk) (K.Within (Lexer.SameIn .statement)) := by
  have hspan {l l' : Lexer} (hl : K.Within Lexer.IsWord l) (_ : K.Within (·.kind = .eof) l') :
      (K.map l).ahead.span = l.ahead.span.map K.shift := span_map hl.1 (not_torn_of_isWord hl.2)
  exact ((Carries.givenUp hopen hspan hk).within fun _ hl => .inr hl).or
    ((hclosed.seq ((carries_word d _ _ _).seq carries_trailingComments)).node hk)

/-- A block of lines. If it has an end, then no line of it is the last of the text. -/
theorem Carries.ended_many (hR : K.Carries Lexer.IsWord R (K.Within c))
    (hS : K.Carries (fun l => c l ∧ ¬ stops l) S fun l => K.Within c l ∨ K.Spent l) (hs : K.Keeps stops)
    (hstop : ∀ l : Lexer, l.kind = .eof → stops l) (hbad : ∀ l, K.Spent l → K.Bad problem) :
    K.Carries Lexer.IsWord (Reading.ended kind problem (R.seq (Reading.many stops S)) hk)
      (K.Within (Lexer.SameIn .statement)) := by
  -- only a block that is given up may end with the text, and that is among the bad problems
  refine Carries.ended (fun hnb => ?_) (hR.seq (hS.many_upTo hs hstop)).seq_upTo
  have hnone : K.Carries (fun l => c l ∧ ¬ stops l) S (K.Within c) :=
    hS.to fun l hl => hl.resolve_right fun hsp => hnb (hbad l hsp)
  exact ((hR.seq (hnone.many hs)).upTo (keeps_kind .eof)).within fun _ hl => hl.2

end

theorem carries_mataOpening (c : Lexer → Prop) :
    K.Carries c mataOpening (K.Within (Lexer.SameIn .mataHead)) :=
  (carries_word c _ _ _).seq (carries_eat _ _ (by decide))

/-- The content in braces is whole if something follows that the end of the text does not satisfy. -/
theorem carries_mataContent {p : Lexer → Prop} (hp : K.Keeps p)
    (ht : ∀ l, K.Torn l → l.kind = .mataContent → ¬ p (l.next .mataBrace)) (c : Lexer → Prop) :
    K.Carries c ((eat .mataContent .mataBrace).upTo p) (K.Within p) := by
  intro l items l' ⟨heat, hpl⟩ hclean hn _
  rcases heat with ⟨hk, htake⟩ | ⟨hk, rfl, rfl⟩
    -- torn content has the end of the text behind it
  · have hwhole : ¬ K.Torn l ∧ l.kind ≠ .newline := by
      have hnext := htake.2.2
      have hk : l.kind = .mataContent := hk
      exact ⟨fun htorn => ht l htorn hk (hnext ▸ hpl), fun hb => absurd (hk.symm.trans hb) (by decide)⟩
    obtain ⟨⟨hR, htaken⟩, hn', -⟩ := carries_take .mataBrace (fun l hl => hl) htake hclean hn hwhole
    exact ⟨⟨⟨.inl ⟨(keeps_kind _ hn).mpr hk, hR⟩, (hp hn').mpr hpl⟩, htaken⟩, hn', hpl⟩
  · exact ⟨.nil ⟨.inr ⟨((keeps_kind _).not hn).mpr hk, rfl, rfl⟩, (hp hn).mpr hpl⟩, hn, hpl⟩

theorem carries_mataBraces : K.Carries Lexer.IsWord mataBraces (K.Within (Lexer.SameIn .statement)) := by
  have hbody {p : Lexer → Prop} (hp : K.Keeps p)
      (ht : ∀ l, K.Torn l → l.kind = .mataContent → ¬ p (l.next .mataBrace)) :
      K.Carries Lexer.IsWord (((mataOpening.upTo (·.kind = .leftBrace)).seq
        ((take .mataBrace).seq (eat .mataContent .mataBrace))).upTo p) (K.Within p) := by
    have hopening := (carries_mataOpening (K := K) Lexer.IsWord).upTo (keeps_kind .leftBrace)
    have hbrace := (carries_take_kind (K := K) .leftBrace .mataBrace (by decide)).of
      fun l (hl : l.SameIn .mataHead ∧ l.kind = .leftBrace) => hl.2
    exact (hopening.seq (hbrace.seq (carries_mataContent hp ht _)).seq_upTo).seq_upTo
  refine Carries.delimited (fun hbad => hbody (keeps_kind _).not fun l ht _ => ?_)
    (hbody (keeps_kind _) fun l ht hk => ?_) (by decide) fun hl _ => span_map hl.1 (not_torn_of_isWord hl.2)
  · exact absurd (K.bad_of_torn ht).2 hbad
  · rcases K.torn_cases ht with ho | ⟨-, -, hnext⟩
    · exact absurd hk (kind_of_atOpenComment ho (by decide))
    · rw [hnext]
      decide

theorem carries_mataLines : K.Carries Lexer.IsWord mataLines (K.Within (Lexer.SameIn .statement)) := by
  have hopening := ((carries_mataOpening (K := K) Lexer.IsWord).upTo keeps_endsLine).within
    fun l hl => (Or.inl hl.1 : l.SameIn .mataHead ∨ l.SameIn .mataLine)
  have hline : K.Carries (fun l => (l.SameIn .mataHead ∨ l.SameIn .mataLine) ∧ ¬ MataEnds l) (take .mataLine)
      fun l => K.Within (fun l => l.SameIn .mataHead ∨ l.SameIn .mataLine) l ∨ K.Spent l := by
    refine (carries_take_any .mataLine fun l hl => ?_).to fun l hl => hl.imp (fun h => ⟨h.1, .inr h.2⟩) And.left
    rcases hl.1 with hsame | hsame
    · exact not_torn_of_sameIn hsame (by decide) (by decide)
    · exact not_torn_of_sameIn hsame (by decide) (by decide)
  exact hopening.ended_many hline ((keeps_kind _).or (keeps_kind _)) (fun _ => .inl) fun _ hl => (K.bad_of_spent hl).1

theorem carries_mataInline : K.Carries Lexer.IsWord mataInline (K.Within (Lexer.SameIn .statement)) := by
  have hopening := (carries_mataOpening (K := K) Lexer.IsWord).upTo
    ((keeps_kind .leftBrace).not.and keeps_endsLine.not)
  refine (hopening.seq (carries_take _ fun l hl => ?_)).node _
  exact ⟨not_torn_of_sameIn hl.1 (by decide) (by decide), fun hn => hl.2.2 (.inl hn)⟩

theorem carries_mataBlock : K.Carries Lexer.IsWord mataBlock (K.Within (Lexer.SameIn .statement)) :=
  carries_mataBraces.or (carries_mataLines.or carries_mataInline)

/-! ## Statements -/

theorem carries_blockClose (c : Lexer → Prop) :
    K.Carries (fun l => c l ∧ l.kind = .rightBrace) blockClose (K.Within (Lexer.SameIn .statement)) := by
  have hclose := carries_take_kind (K := K) .rightBrace .statement (by decide)
  exact ((hclose.of fun _ hl => hl.2).seq carries_arguments).node _

theorem carries_macroDefinition (c : Lexer → Prop) :
    K.Carries c macroDefinition (K.Within (Lexer.SameIn .statement)) :=
  (((carries_word _ _ _ _).either (carries_word _ _ _ _) (keeps_isWordOf _)).seq
    (carries_arguments.name_seq reportsOpen_arguments _)).node _

theorem carries_temporaryDefinition (c : Lexer → Prop) :
    K.Carries c temporaryDefinition (K.Within (Lexer.SameIn .statement)) := by
  have hnames : K.Carries (Lexer.SameIn .statement) ((many (fun l => ¬ l.IsWord) nameWord).seq trailingComments)
      (K.Within (Lexer.SameIn .statement)) :=
    (((carries_nameWord _).many keeps_isWord.not).within fun _ hl => hl.1).seq carries_trailingComments
  have hopen : ReportsOpen ((many (fun l => ¬ l.IsWord) nameWord).seq trailingComments) :=
    reportsOpen_trailingComments.after_many fun l ho hw => by
      rw [Lexer.IsWord, ho.1] at hw
      exact absurd hw (by decide)
  have hreport := (hnames.report_seq hopen (fun _ hl => hl) .expectedSomeName).of
    fun l (hl : l.SameIn .statement ∧ ¬ l.IsWord) => hl.1
  have hskip := ((carries_skip _).seq hnames).of fun l (hl : l.SameIn .statement ∧ l.IsWord) => hl.1
  exact ((carries_word c _ _ _).seq (hskip.either_seq hreport keeps_isWord)).node _

theorem carries_strayEnd : K.Carries Lexer.IsWord strayEnd (K.Within (Lexer.SameIn .statement)) :=
  ((carries_report _ fun _ => not_torn_of_isWord).seq
    ((carries_word _ _ _ _).seq carries_trailingComments)).node _

theorem inLine_of_isWord {l : Lexer} (h : l.SameIn .statement) (hw : l.IsWord) : InLine l := ⟨h, hw.not_endsLine⟩

theorem carries_commandPrefix (c : Lexer → Prop) :
    K.Carries (fun l => c l ∧ ¬ ¬ AtPrefix l) commandPrefix (K.Within InLine) := by
  have hprefix : K.Carries (fun l => c l ∧ ¬ ¬ AtPrefix l) commandPrefix (K.Within (Lexer.SameIn .statement)) :=
    ((carries_word _ _ _ _).seq (carries_eat _ _ (by decide))).node _
  have hword := hprefix.and fun hl h => isWord_of_commandPrefix (Classical.not_not.mp hl.2) h
  exact hword.within fun _ hl => inLine_of_isWord hl.1 hl.2

theorem carries_commandHead : K.Carries InLine commandHead (K.Within (Lexer.SameIn .statement)) := by
  have herror := ((carries_argument (K := K)).report_seq reportsOpen_argument (fun _ hl => hl.1)
    .expectedCommandName).node Kind.isNode_error
  exact (carries_nameWord _).either ((carries_argument.of fun _ hl => hl.1.1).either
    (herror.of fun _ hl => hl.1.1) (keeps_kind _)) keeps_isWord

theorem carries_command : K.Carries InLine command (K.Within (Lexer.SameIn .statement)) := by
  have hprefixes := ((carries_commandPrefix (K := K) InLine).many keeps_atPrefix.not).within fun _ hl => hl.1
  exact (hprefixes.seq (carries_commandHead.seq carries_arguments)).node _

/-! ## Programs and lines -/

theorem carries_programHead (c : Lexer → Prop) : K.Carries c programHead (K.Within (Lexer.SameIn .statement)) := by
  have hdefine := (carries_word (K := K) _ .defineKeyword .statement (by decide)).either
    ((carries_skip _).of fun l (hl : l.SameIn .statement ∧ ¬ l.IsWordOf ["define"]) => hl.1) (keeps_isWordOf _)
  exact (carries_word c _ _ _).seq (hdefine.seq (carries_arguments.name_seq reportsOpen_arguments _))

section
variable {line : Reading} (h : K.Carries (Lexer.SameIn .statement) line K.Out)
include h

theorem carries_programDefinition :
    K.Carries Lexer.IsWord (programDefinition line) (K.Within (Lexer.SameIn .statement)) := by
  have hlines := (h.of fun l (hl : l.SameIn .statement ∧ ¬ ProgramEnds l) => hl.1).to
    fun l hl => hl.imp_right And.left
  exact (carries_programHead _).ended_many hlines ((keeps_kind _).or (keeps_isWordOf _)) (fun _ => .inl)
    fun _ hl => (K.bad_of_spent hl).2

theorem carries_statement : K.Carries InLine (statement line) (K.Within (Lexer.SameIn .statement)) := by
  have hcomment : K.Keeps fun l => l.kind.isComment = true := keeps_of_kind (·.isComment = true)
  exact ((carries_argument.node _).of fun _ hl => hl.1).either ((carries_blockClose _).either
    (((carries_programDefinition h).of fun _ hl => hl.2.1.1).either ((carries_mataBlock.of fun _ hl => hl.2.1).either
      ((carries_macroDefinition _).either ((carries_temporaryDefinition _).either
        ((carries_strayEnd.of fun _ hl => hl.2.1).either (carries_command.of fun _ hl => hl.1.1.1.1.1.1.1)
          (keeps_isWordOf _)) (keeps_isWordOf _)) ((keeps_isWordOf _).or (keeps_isWordOf _))) (keeps_isWordOf _))
            keeps_atProgram) (keeps_kind _)) hcomment

theorem carries_fullLine : K.Carries (Lexer.SameIn .statement) (fullLine line) K.Out := by
  have hcomment : K.Carries (fun l => l.SameIn .statement ∧ ¬ l.kind ≠ .blockComment) comment
      (K.Within (Lexer.SameIn .statement)) :=
    (carries_argument.of fun l hl =>
      ⟨hl.1, not_endsLine_of_atTrailingComment (.inr (.inr (Classical.not_not.mp hl.2)))⟩).node _
  have hcomments := (hcomment.many (keeps_kind _).not).within fun _ hl => hl.1
  have hstatement := ((carries_skip _).of fun l (hl : l.SameIn .statement ∧ l.EndsLine) => hl.1).either
    (carries_statement h) keeps_endsLine
  exact hcomments.seq (hstatement.seq carries_endOfLine)

theorem carries_lineWith : K.Carries (Lexer.SameIn .statement) (lineWith line) K.Out := by
  have hempty := carries_take_any (K := K) .statement fun l (hl : l.SameIn .statement ∧ l.kind = .newline) =>
    not_torn_of_endsLine (.inl hl.2)
  exact ((hempty.either ((carries_fullLine h).of fun _ hl => hl.1) (keeps_kind _)).of fun _ hl => hl.1).when
    (keeps_kind _).not

end

/-- What a line is read as is carried over, and it leads to the next line or to where
nothing is left. -/
theorem carries_line : ∀ depth : Nat, K.Carries (Lexer.SameIn .statement) (line depth) K.Out
  | 0 => fun _ _ _ h => h.elim
  | depth + 1 => carries_lineWith (carries_line depth)

end Dofile.Transport
