import Dofile.Proofs.Derivation

/-!
# Derivations of the rules

What each rule of the grammar reads is a derivation, rule by rule in the order of the
readings.
-/

namespace Dofile.Reading

/-! ## Strings and macro references -/

section
variable {outer : Setting} {p : Lexer → Prop} {R : Reading}

theorem derives_globalMacro (outer : Setting) (p : Lexer → Prop) :
    Derives outer p (globalMacro outer.mode) := by
  intro l items l' _ ⟨hl, h⟩
  rcases h with ⟨_, ⟨_, _, _, ⟨⟨-, rfl, rfl⟩, hn⟩, ⟨-, rfl, rfl⟩, rfl⟩, rfl⟩ | h |
    ⟨_, _, _, ⟨_, ⟨⟨-, rfl, rfl⟩, hn, hb⟩, -, rfl⟩, -, -⟩
  · exact .plainMacro hl rfl hn
  · rcases delimited_cases h with ⟨is, m, hbody, hm, rfl, rfl⟩ | ⟨is, m, hbody, hm, rfl, rfl⟩
    all_goals obtain ⟨_, _, _, ⟨⟨-, rfl, rfl⟩, hb⟩, ⟨_, _, _, ⟨-, rfl, rfl⟩, hname, rfl⟩, rfl⟩ := hbody
    · exact .bracedMacro hl rfl hb hname hm
    · exact .openMacro hl rfl hb hname hm
  · exact absurd (Lexer.next_of_dollar hl) (by simp [hn, hb])

/-- A construct is derived where its content is, from behind its opener to its closer or to the
end of the line. -/
theorem Derives.construct {q : Construct} (h : Derives (.within q) (·.SameIn q.mode) R)
    (hends : ∀ {l is m}, R.leads l is m → m.kind = q.closer ∨ m.EndsLine) (hk : q.kind.isNode = true) :
    Derives outer (fun l => outer.Opens q ∧ l.kind = q.opener)
      (delimited q.kind q.closer q.problem (fun l _ => l.ahead.span)
      outer.mode ((take q.mode).seq R) hk) := by
  intro l items l' ⟨hopens, hl⟩ hR
  rcases delimited_cases hR with ⟨is, m, hbody, hm, rfl, rfl⟩ | ⟨is, m, hbody, hm, rfl, rfl⟩
  all_goals
    obtain ⟨_, _, _, ⟨-, rfl, rfl⟩, hcontent, rfl⟩ := hbody
    have hinner := h (.inl rfl) hcontent
  · exact .closed hopens hl hinner hm
  · exact .unclosed hopens hl hinner ((hends hcontent).resolve_left hm)

theorem kind_mem_of_not_endsLine {l : Lexer} {mode : Mode} (h : l.SameIn mode) (hline : ¬ l.EndsLine) :
    l.kind ∈ mode.kinds := by
  have hmode := h.resolve_right fun h => hline (.inr h)
  exact hmode ▸ (l.kind_cases.resolve_left fun h => hline (.inr h)).resolve_left fun h => hline (.inl h)

theorem derives_stringItem : Derives (.within .doubleString)
    (fun l => l.SameIn .doubleString ∧ ¬ StringEnds l)
    stringItem := by
  have htoken : ∀ k ∈ Mode.doubleString.kinds, k ≠ .doubleQuote → k ≠ .dollar →
      k ∈ Construct.doubleString.tokens := by decide
  have htake : Derives (.within .doubleString)
    (fun l => (l.SameIn .doubleString ∧ ¬ StringEnds l) ∧ l.kind ≠ .dollar)
      (take .doubleString) :=
    derives_take (fun _ ⟨⟨hmode, hends⟩, hdollar⟩ _ => htoken _
      (kind_mem_of_not_endsLine hmode fun he => hends (.inr he)) (fun he => hends (.inl he)) hdollar) rfl
  exact (derives_globalMacro _ _).either htake

theorem derives_doubleString :
    Derives outer (fun _ => outer.Opens .doubleString) (doubleString outer.mode) := by
  have hcontent : Derives (.within .doubleString) (·.SameIn .doubleString) (many StringEnds stringItem) :=
    derives_stringItem.many fun hl h => (reads_stringItem h hl).1
  exact Derives.when (Derives.construct (q := .doubleString) hcontent stops_of_many rfl)

/-- What a content item reads where it is the reading of no construct. -/
theorem mem_tokens_nested {family : Family} {depth : Nat} {k : Kind} (h : k ∈ family.mode.kinds)
    (hcloser : k ≠ family.closer) (hcompound : ¬ (k = .compoundOpen ∧ family = .compoundString))
    (hbacktick : k ≠ .backtick) (hdollar : k ≠ .dollar) (hquote : k ≠ .doubleQuote) :
    k ∈ (Construct.nested family depth).tokens := by
  cases family with
  | localMacro =>
    exact (show ∀ k ∈ Mode.localMacro.kinds, k ≠ .quote → k ≠ .backtick → k ≠ .dollar → k ≠ .doubleQuote →
      k ∈ [Kind.ident, .number, .macroText] by decide) k h hcloser hbacktick hdollar hquote
  | compoundString =>
    exact (show ∀ k ∈ Mode.compoundString.kinds, k ≠ .compoundClose → k ≠ .compoundOpen → k ≠ .backtick →
      k ≠ .dollar → k ≠ .doubleQuote → k ∈ [Kind.compoundText] by decide) k h hcloser
        (fun e => hcompound ⟨e, rfl⟩) hbacktick hdollar hquote

section
variable {construct : Family → Nat → Mode → Reading} (family : Family) (depth : Nat)

theorem derives_contentItem
    (h : ∀ {outer : Setting} (f d),
    Derives outer (fun _ => outer.Opens (.nested f d)) (construct f d outer.mode)) :
    Derives (.within (.nested family depth)) (fun l => l.SameIn family.mode ∧ ¬ ContentEnds family l)
      (contentItem construct family depth) := by
  have hcompound : family = .compoundString →
      (Setting.within (.nested family depth)).Opens (.nested .compoundString (depth + 1)) := by
    intro e
    subst e
    rfl
  have hbacktick : (Setting.within (.nested family depth)).Opens
      (.nested .localMacro (family.innerMacroDepth depth)) := by
    cases family <;> rfl
  have hstring : (Setting.within (.nested family depth)).Opens .doubleString := trivial
  refine ((h _ _).of fun _ h => hcompound h.2.2).either (((h _ _).of fun _ _ => hbacktick).either
    ((derives_globalMacro _ _).either ((derives_doubleString.of fun _ _ => hstring).either
      (derives_take (fun l h _ => ?_) rfl))))
  obtain ⟨⟨⟨⟨⟨hmode, hends⟩, hcompound⟩, hbacktick⟩, hdollar⟩, hquote⟩ := h
  exact mem_tokens_nested (kind_mem_of_not_endsLine hmode fun he => hends (.inr he))
    (fun he => hends (.inl he))
    hcompound hbacktick hdollar hquote

end

theorem derives_constructWith {contents : Family → Nat → Reading}
    (h : ∀ f d, Derives (.within (.nested f d)) (·.SameIn f.mode) (contents f d))
    (hends : ∀ {f d l is m}, (contents f d).leads l is m → ContentEnds f m) (family : Family) (depth : Nat) :
    Derives outer (fun _ => outer.Opens (.nested family depth))
    (constructWith contents family depth outer.mode) :=
  Derives.when (Derives.construct (q := .nested family depth) (h family depth) hends
    (family.isNode_kindAt depth))

theorem contentEnds_of_contentsTo :
    ∀ {height : Nat} {family : Family} {depth : Nat} {l m : Lexer} {is : List Item},
    (contentsTo height family depth).leads l is m → ContentEnds family m
  | 0, _, _, _, _, _, h => h.elim
  | _ + 1, _, _, _, _, _, h => stops_of_many h

theorem derives_contentsTo : ∀ (height : Nat) (family : Family) (depth : Nat),
    Derives (.within (.nested family depth)) (·.SameIn family.mode) (contentsTo height family depth)
  | 0, _, _ => fun _ _ _ _ h => h.elim
  | height + 1, family, depth => by
    have hitem := derives_contentItem family depth fun f d =>
      derives_constructWith (derives_contentsTo height) contentEnds_of_contentsTo f d
    exact hitem.many fun hl h =>
      (reads_contentItem (reads_constructWith (reads_contentsTo height)) _ _ h hl).1

theorem derives_construct (family : Family) (depth : Nat) :
    Derives outer (fun _ => outer.Opens (.nested family depth)) (construct family depth outer.mode) :=
  fun _ _ _ hl ⟨height, h⟩ =>
    derives_constructWith (derives_contentsTo height) contentEnds_of_contentsTo family depth hl h

/-! ## Nodes of statements -/

theorem Derives.node {kind : Kind} (h : Derives .line p R) (hm : R.Moves)
    (hk : kind ∈ Kind.lineNodes ∧ kind ≠ .comment) (hnode : kind.isNode = true) :
    Derives .line p (node kind R hnode) := by
  intro l _ l' hl ⟨is, hR, e⟩
  subst e
  exact .node hk.1 (h hl hR) (hm hR) fun hc => absurd hc hk.2

theorem Derives.problem {problem : Problem} (h : Derives .line p R) (hp : problem ∈ Problem.ofLine)
    (hm : ∀ {l is m}, p l → R.leads l is m → m.rest.length < l.rest.length) :
    Derives .line p (Reading.node .error ((report problem).seq R) Kind.isNode_error) := by
  intro l _ l' hl ⟨_, ⟨_, _, is, ⟨rfl, rfl⟩, hR, rfl⟩, e⟩
  subst e
  exact .problem hp (h hl hR) (hm hl hR)

theorem takes_of_kind {l : Lexer} {kind : Kind} (h : l.kind = kind) (hk : kind ∉ Kind.lineOpeners)
    (hc : kind ≠ .blockComment) : Setting.line.Takes l := ⟨h ▸ hk, fun ha => hc (h.symm.trans ha.1)⟩

theorem derives_eat {kind : Kind} {mode : Mode} (hk : kind ∉ Kind.lineOpeners) (hc : kind ≠ .blockComment) :
    Derives .line p (eat kind mode) :=
  (derives_take (fun _ h _ => takes_of_kind h.2 hk hc) trivial).either (derives_skip _ _)

/-! ## Arguments -/

theorem derives_argument : Derives .line p argument := by
  have hcomment : Derives .line AtOpenComment (takeInError .unterminatedBlockComment) := by
    intro l _ _ hl h
    obtain ⟨_, ⟨_, _, _, ⟨rfl, rfl⟩, ⟨-, rfl, rfl⟩, rfl⟩, rfl⟩ := h
    exact .openComment hl
  have hunknown : Derives .line (·.kind = .unknown) (takeInError .unexpectedCharacter) := by
    intro l _ _ hl h
    obtain ⟨_, ⟨_, _, _, ⟨rfl, rfl⟩, ⟨-, rfl, rfl⟩, rfl⟩, rfl⟩ := h
    exact .unknown hl
  have hstring : Setting.line.Opens .doubleString := trivial
  have hnested : ∀ family, Setting.line.Opens (.nested family 1) := fun _ => rfl
  refine (derives_doubleString.of fun _ _ => hstring).either
    (((derives_construct _ _).of fun _ _ => hnested _).either
    (((derives_construct _ _).of fun _ _ => hnested _).either ((derives_globalMacro _ _).either
      ((hcomment.of fun _ h => h.2).either
      ((hunknown.of fun _ h => h.2).either (derives_take (fun l h he => ?_) trivial))))))
  obtain ⟨⟨⟨⟨⟨⟨-, hquote⟩, hcompound⟩, hbacktick⟩, hdollar⟩, hopen⟩, hunknown⟩ := h
  refine ⟨?_, hopen⟩
  simp [Kind.lineOpeners, he, hquote, hcompound, hbacktick, hdollar, hunknown]

theorem derives_arguments : Derives .line p arguments :=
    (derives_argument.many fun _ _ => trivial).of fun _ _ => trivial

theorem derives_trailingComments : Derives .line p trailingComments :=
  (derives_argument.many fun _ _ => trivial).of fun _ _ => trivial

theorem derives_remnant : Derives .line p remnant :=
  (derives_skip _ _).either (derives_arguments.problem (by decide) fun hl h =>
  moves_of_many moves_argument hl.2 h)

theorem derives_endOfLine : Derives .line p endOfLine :=
  derives_trailingComments.seq (fun _ _ => trivial) (derives_remnant.seq (fun _ _ => trivial)
    ((derives_eat (by decide) (by decide)).of fun _ _ => trivial))

theorem derives_nameWord : Derives .line p nameWord :=
  (derives_word _ _ _).node (moves_word _ _ _) (by decide) _

theorem derives_name {problem : Problem} (hp : problem ∈ Problem.statementNames) :
    Derives .line (·.mode = .statement) (name problem) :=
  derives_nameWord.either ((derives_report hp).of fun _ h => h.1)

theorem mode_of_word {kind : Kind} {mode : Mode} {hk : kind ∈ Kind.wordLabels} {l m : Lexer} {items : List Item}
    (h : (word kind mode hk).leads l items m) : m.mode = mode := by
  obtain ⟨-, -, rfl⟩ := h
  rfl

/-! ## Simple statements and commands -/

theorem derives_comment : Derives .line (·.kind.isComment = true) comment := by
  intro l _ l' hl ⟨is, hR, e⟩
  subst e
  exact .node (by decide) (derives_argument (p := fun _ => True) trivial hR) (moves_argument hR)
    fun _ => ⟨hl, argument_of_comment hl hR⟩

theorem derives_blockClose : Derives .line (·.kind = .rightBrace) blockClose :=
  ((derives_take (fun _ h _ => takes_of_kind h (by decide) (by decide)) trivial).seq (fun _ _ => trivial)
    derives_arguments).node ((moves_take _).seq _) (by decide) _

theorem derives_macroDefinition : Derives .line p macroDefinition :=
  (((derives_word _ _ _).either (derives_word _ _ _)).seq
    (fun _ h => h.elim (fun h => mode_of_word h.2) fun h => mode_of_word h.2)
    ((derives_name (by decide)).seq (fun _ _ => trivial) derives_arguments)).node
      (((moves_word _ _ _).either (moves_word _ _ _) _).seq _) (by decide) _

theorem derives_temporaryDefinition : Derives .line p temporaryDefinition :=
  ((derives_word _ _ _).seq (fun _ h => mode_of_word h)
    (((derives_skip _ _).either ((derives_report (by decide)).of fun _ h => h.1)).seq (fun _ _ => trivial)
      ((derives_nameWord.many fun _ _ => trivial).seq (fun _ _ => trivial) derives_trailingComments))).node
        ((moves_word _ _ _).seq _) (by decide) _

theorem derives_strayEnd : Derives .line p strayEnd :=
  ((derives_word _ _ _).seq (fun _ _ => trivial) derives_trailingComments).problem (by decide)
    fun _ h => (moves_word _ _ _).seq _ h

theorem derives_commandPrefix : Derives .line p commandPrefix :=
  ((derives_word _ _ _).seq (fun _ _ => trivial) (derives_eat (by decide) (by decide))).node
    ((moves_word _ _ _).seq _) (by decide) _

theorem derives_commandHead : Derives .line p commandHead :=
  derives_nameWord.either (derives_argument.either
    (derives_argument.problem (by decide) fun _ h => moves_argument h))

theorem derives_command : Derives .line p command := by
  have hcommand : Derives .line (fun _ => True) command :=
    ((derives_commandPrefix.many fun _ _ => trivial).seq (fun _ _ => trivial)
      (derives_commandHead.seq (fun _ _ => trivial) derives_arguments)).node
        ((moves_commandHead.seq _).after _) (by decide) _
  exact hcommand.of fun _ _ => trivial

/-! ## Blocks -/

def TakesFirst (R : Reading) : Prop := ∀ ⦃l is m⦄, R.leads l is m → Item.StartWith l is

theorem takesFirst_word (kind : Kind) (mode : Mode) (hk : kind ∈ Kind.wordLabels) :
    (word kind mode hk).TakesFirst := fun _ _ _ h => ⟨kind, [], h.2.1⟩

theorem TakesFirst.seq (h : R.TakesFirst) (S : Reading) : (R.seq S).TakesFirst := by
  intro l _ _ ⟨_, _, js, hR, _, e⟩
  subst e
  obtain ⟨kind, is, rfl⟩ := h hR
  exact ⟨kind, is ++ js, rfl⟩

theorem TakesFirst.upTo (h : R.TakesFirst) (c : Lexer → Prop) : (R.upTo c).TakesFirst := fun _ _ _ hR => h hR.1

section
variable {kind : Kind} {problem : Problem} (hb : (kind, problem) ∈ Problem.openBlocks)
  (hnode : kind.isNode = true) (h : Derives .line p R) (hm : R.Moves) (hfirst : R.TakesFirst)
include hb h hm hfirst

theorem Derives.ended : Derives .line p (ended kind problem R hnode) := by
  have hclosed : Derives .line p ((R.upTo (·.kind ≠ .eof)).seq
      ((word .endKeyword .statement Kind.endKeyword_mem_wordLabels).seq trailingComments)) :=
    (h.upTo _).seq (fun _ _ => trivial)
    ((derives_word _ _ _).seq (fun _ _ => trivial) derives_trailingComments)
  refine Derives.or ?_ (hclosed.node ((hm.upTo _).seq _) (Kind.mem_lineNodes_of_openBlocks hb) hnode)
  intro l _ m hl ⟨is, ⟨hR, _⟩, _, e⟩
  subst e
  exact .openBlock hb (h hl hR) (hm hR) (.inl rfl) (hfirst hR)

theorem Derives.braces : Derives .line p
    (delimited kind .rightBrace problem (fun l _ => l.ahead.span) .statement R hnode) := by
  intro l _ _ hl hR
  rcases delimited_cases hR with ⟨is, m, hbody, hbrace, rfl, rfl⟩ | ⟨is, m, hbody, -, rfl, rfl⟩
  · have hcloser : Setting.line.Takes m := takes_of_kind hbrace (by decide) (by decide)
    obtain ⟨hk, hcomment⟩ := Kind.mem_lineNodes_of_openBlocks hb
    exact .node hk (.append (h hl hbody) (.token hcloser trivial))
      (Nat.lt_trans (Lexer.after_length_lt hcloser.ne_eof) (hm hbody)) fun hc => absurd hc hcomment
  · exact .openBlock hb (h hl hbody) (hm hbody) (.inr rfl) (hfirst hbody)

end

theorem derives_mataOpening : Derives .line p mataOpening :=
  (derives_word _ _ _).seq (fun _ _ => trivial) (derives_eat (by decide) (by decide))

theorem takesFirst_mataOpening : mataOpening.TakesFirst := (takesFirst_word _ _ _).seq _

theorem mode_of_mataOpening {l m : Lexer} {is : List Item} (h : mataOpening.leads l is m) :
    m.mode = .mataHead := by
  obtain ⟨_, _, _, ⟨-, -, rfl⟩, ⟨-, -, -, rfl⟩ | ⟨-, -, rfl⟩, -⟩ := h <;> rfl

/-- Of the tokens in a mata block none opens anything. -/
theorem takes_of_mata {l : Lexer} (h : l.SameIn .mataHead ∨ l.SameIn .mataLine) (he : l.kind ≠ .eof) :
    Setting.line.Takes l := by
  have hplain : ∀ k ∈ [Kind.newline] ++ Mode.mataHead.kinds ++ Mode.mataLine.kinds,
      k ∉ Kind.lineOpeners ∧ k ≠ .blockComment := by decide
  have hmem : l.kind ∈ [Kind.newline] ++ Mode.mataHead.kinds ++ Mode.mataLine.kinds := by
    have hcases := l.kind_cases.resolve_left he
    simp only [List.mem_append, List.mem_singleton]
    rcases h with h | h <;> rw [h.resolve_right he] at hcases
    · exact .inl hcases
    · exact hcases.elim (fun h => .inl (.inl h)) .inr
  exact takes_of_kind rfl (hplain _ hmem).1 (hplain _ hmem).2

theorem derives_mataBlock : Derives .line p mataBlock := by
  have hbraces : Derives .line p mataBraces := by
    refine Derives.braces (by decide) _ ?_ ((moves_mataOpening.upTo _).seq _)
      ((takesFirst_mataOpening.upTo _).seq _)
    exact (derives_mataOpening.upTo _).seq (fun _ h => h.2)
      ((derives_take (fun _ h _ => takes_of_kind h (by decide) (by decide)) trivial).seq (fun _ _ => trivial)
        (derives_eat (by decide) (by decide)))
  have hlines : Derives .line p mataLines := by
    refine Derives.ended (by decide) _ ?_ ((moves_mataOpening.upTo _).seq _)
      ((takesFirst_mataOpening.upTo _).seq _)
    have htake : Derives .line (fun l => (l.SameIn .mataHead ∨ l.SameIn .mataLine) ∧ ¬ MataEnds l)
      (take .mataLine) :=
      derives_take (fun _ h => takes_of_mata h.1) trivial
    refine (derives_mataOpening.upTo _).seq (fun _ h => ?_) (htake.many fun _ h => ?_)
    · exact .inl (.inl (mode_of_mataOpening h.1))
    · obtain ⟨-, -, rfl⟩ := h
      exact .inr (.inl rfl)
  have hinline : Derives .line p mataInline := by
    have htake : Derives .line (fun l => l.SameIn .mataHead) (take .statement) :=
      derives_take (fun _ h => takes_of_mata (.inl h)) trivial
    exact ((derives_mataOpening.upTo _).seq (fun _ h => .inl (mode_of_mataOpening h.1)) htake).node
      ((moves_mataOpening.upTo _).seq _) (by decide) _
  exact hbraces.or (hlines.or hinline)

/-! ## Programs and lines -/

/-- What follows the keyword of a program, up to the end of its line. -/
theorem derives_programName : Derives .line (·.mode = .statement)
    ((either (·.IsWordOf ["define"]) (word .defineKeyword .statement) skip).seq
      ((name .expectedProgramName).seq arguments)) := by
  refine ((derives_word _ _ _).either (derives_skip _ _)).seq (fun hl h => ?_)
    ((derives_name (by decide)).seq (fun _ _ => trivial) derives_arguments)
  rcases h with ⟨-, h⟩ | ⟨-, -, rfl⟩
  · exact mode_of_word h
  · exact hl

theorem derives_programHead : Derives .line p programHead :=
  (derives_word _ _ _).seq (fun _ h => mode_of_word h) derives_programName

section
variable {line : Reading} (h : Derives .line (fun _ => True) line)
include h

theorem derives_programDefinition : Derives .line p (programDefinition line) :=
  (derives_programHead.seq (fun _ _ => trivial) ((h.of fun _ _ => trivial).many fun _ _ => trivial)).ended
    (by decide) _ (moves_programHead.seq _) (((takesFirst_word _ _ _).seq _).seq _)

theorem derives_statement : Derives .line p (statement line) :=
  (derives_comment.of fun _ h => h.2).either <| (derives_blockClose.of fun _ h => h.2).either <|
    (derives_programDefinition h).either <| derives_mataBlock.either <| derives_macroDefinition.either <|
      derives_temporaryDefinition.either <| derives_strayEnd.either derives_command

theorem derives_fullLine : Derives .line p (fullLine line) := by
  have hcomments : Derives .line p (many (·.kind ≠ .blockComment) comment) := by
    refine Derives.of (p := fun _ => True) (Derives.many (derives_comment.of fun l h => ?_) fun _ _ => trivial)
      fun _ _ => trivial
    rw [Classical.not_not.mp h.2]
    rfl
  exact hcomments.seq (fun _ _ => trivial)
    (((derives_skip _ _).either (derives_statement h)).seq (fun _ _ => trivial) derives_endOfLine)

theorem derives_lineWith : Derives .line p (lineWith line) :=
  Derives.when ((derives_take (fun _ h _ => takes_of_kind h.2 (by decide) (by decide)) trivial).either
    (derives_fullLine h))

end

theorem derives_line : ∀ depth : Nat, Derives .line (fun _ => True) (line depth)
  | 0 => fun _ _ _ _ h => h.elim
  | depth + 1 => derives_lineWith (derives_line depth)

theorem derives_lines (depth : Nat) : Derives .line (fun _ => True) (lines depth) :=
  ((derives_line depth).of fun _ _ => trivial).many fun _ _ => trivial

end

end Dofile.Reading
