import Dofile.Proofs.Form

/-!
# Forms of the rules

What each rule of the grammar yields, rule by rule in the order of the readings.
-/

namespace Dofile.Reading

open Form (IsArgument IsRemark IsBodyItem only each one remarks body)

/-! ## Arguments -/

section
variable {c : Lexer → Prop} {R : Reading}

theorem not_endsLine_of_kind {kind : Kind} (hn : kind ≠ .newline) (he : kind ≠ .eof) (l : Lexer) (h : l.kind = kind) :
    ¬ l.EndsLine := by
  intro hl
  rcases hl with hl | hl
  · exact hn (h.symm.trans hl)
  · exact he (h.symm.trans hl)

theorem argument_le : only IsArgument ≤ Form.arguments := Form.only_le_each fun _ h => h

theorem yields_argumentToken (mode : Mode) (hc : ∀ l, c l → ¬ l.EndsLine) : Yields c (take mode) Form.arguments :=
  ((yields_token mode).mono argument_le).on hc

theorem Yields.delimitedArgument {kind closer : Kind} {problem : Problem} {span : Lexer → Lexer → Span}
    {outer : Mode} (h : Yields c R Form.arguments) (hk : kind.isNode = true) (hform : Form.arguments ≤ kind.form)
    (hr : kind.isReserved = false) (hn : closer ≠ .newline) (he : closer ≠ .eof) :
    Yields c (delimited kind closer problem span outer R hk) Form.arguments := by
  have hclosed : Yields c ((R.upTo (·.kind = closer)).seq (take outer)) Form.arguments :=
    (h.upTo_seq (yields_argumentToken outer (not_endsLine_of_kind hn he))).mono (Form.each_mul_each _)
  have hgiven : Yields c ((Reading.givenUp kind problem span (R.upTo (·.kind ≠ closer)) hk).seq (relex outer))
      Form.arguments :=
    (((h.upTo _).argumentGivenUp hk hform hr).seq (yields_relex outer _)).mono (by rw [mul_one]; exact argument_le)
  exact ((hclosed.argumentNode hk hform hr).mono argument_le).or hgiven

theorem yields_bracedName : Yields c bracedName Form.arguments :=
  ((yields_argumentToken _ (not_endsLine_of_kind (by decide) (by decide))).on fun _ h => h.2).either
    (((yields_report _ _).mono (Form.one_le_each _)).either ((yields_skip _).mono (Form.one_le_each _)))

theorem yields_globalMacro (outer : Mode) : Yields c (globalMacro outer) Form.arguments := by
  have hopener : Yields (fun l => c l ∧ l.kind = .dollar) (take .globalMacro) Form.arguments :=
    yields_argumentToken _ fun l h => not_endsLine_of_kind (by decide) (by decide) l h.2
  have hname : Yields (·.kind = .ident) (take outer) Form.arguments :=
    yields_argumentToken _ (not_endsLine_of_kind (by decide) (by decide))
  have hbrace : Yields (·.kind = .leftBrace) ((take .globalMacro).seq bracedName) Form.arguments :=
    (yields_argumentToken _ (not_endsLine_of_kind (by decide) (by decide))).append yields_bracedName
  have hplain : Yields (fun l => c l ∧ l.kind = .dollar) (plainMacro outer) Form.arguments :=
    (((hopener.upTo_seq hname).mono (Form.each_mul_each _)).argumentNode (by decide) le_rfl rfl).mono argument_le
  have hbraced : Yields (fun l => c l ∧ l.kind = .dollar) (bracedMacro outer) Form.arguments :=
    ((hopener.upTo_seq hbrace).mono (Form.each_mul_each _)).delimitedArgument (by decide) le_rfl rfl (by decide)
      (by decide)
  have hnameless : Yields (fun l => c l ∧ l.kind = .dollar) (namelessMacro outer) Form.arguments :=
    (((hopener.upTo _).argumentGivenUp (by decide) le_rfl rfl).seq (yields_relex outer _)).mono
      (by rw [mul_one]; exact argument_le)
  exact (hplain.or (hbraced.or hnameless)).when

theorem yields_stringItem : Yields (fun l => ¬ StringEnds l) stringItem Form.arguments :=
  (yields_globalMacro _).either (yields_argumentToken _ fun _ h he => h.1 (.inr he))

theorem yields_doubleString (outer : Mode) : Yields c (doubleString outer) Form.arguments :=
  Yields.when (Yields.delimitedArgument ((yields_argumentToken _ fun l h =>
    not_endsLine_of_kind (by decide) (by decide) l h.2).append (yields_stringItem.many _)) (by decide) le_rfl rfl
      (by decide) (by decide))

theorem form_kindAt (family : Family) (depth : Nat) : (family.kindAt depth).form = Form.arguments := by
  cases family <;> rfl

theorem isReserved_kindAt (family : Family) (depth : Nat) : (family.kindAt depth).isReserved = false := by
  cases family with
  | localMacro => exact (show ∀ label, (Kind.localMacro label).isReserved = false by decide) _
  | compoundString => exact (show ∀ label, (Kind.compoundString label).isReserved = false by decide) _

theorem yields_contentItem {construct : Family → Nat → Mode → Reading}
    (h : ∀ f d m, Yields (fun _ => True) (construct f d m) Form.arguments) (family : Family) (depth : Nat) :
    Yields (fun l => ¬ ContentEnds family l) (contentItem construct family depth) Form.arguments :=
  ((h _ _ _).on fun _ _ => trivial).either <| ((h _ _ _).on fun _ _ => trivial).either <|
    (yields_globalMacro _).either <| (yields_doubleString _).either <|
      yields_argumentToken _ fun _ h he => h.1.1.1.1 (.inr he)

theorem yields_constructWith {contents : Family → Nat → Reading}
    (h : ∀ f d, Yields (fun _ => True) (contents f d) Form.arguments) (family : Family) (depth : Nat) (outer : Mode) :
    Yields c (constructWith contents family depth outer) Form.arguments := by
  have hopener : ∀ l : Lexer, c l ∧ l.kind = family.opener → ¬ l.EndsLine := fun l h =>
    not_endsLine_of_kind (by cases family <;> decide) (Grammar.opener_ne_eof family) l h.2
  exact (((yields_argumentToken family.mode hopener).append (h family depth)).delimitedArgument
    (family.isNode_kindAt depth) (form_kindAt family depth).ge (isReserved_kindAt family depth)
    (Grammar.closer_ne_newline family) (Grammar.closer_ne_eof family)).when

theorem yields_contentsTo : ∀ (height : Nat) (family : Family) (depth : Nat),
    Yields (fun _ => True) (contentsTo height family depth) Form.arguments
  | 0, _, _ => fun _ _ _ _ h => h.elim
  | height + 1, family, depth =>
    (yields_contentItem (yields_constructWith (yields_contentsTo height)) family depth).many _

theorem yields_construct (family : Family) (depth : Nat) (outer : Mode) :
    Yields c (construct family depth outer) Form.arguments :=
  Yields.any fun height => yields_constructWith (yields_contentsTo height) family depth outer

theorem yields_takeInError (problem : Problem) :
    Yields (fun l => ¬ l.EndsLine) (takeInError problem) (only IsArgument) :=
  ((yields_argumentToken _ fun _ h => h).report_seq problem).argumentNode _ Item.arguments_le_error rfl

theorem yields_argument : Yields (fun l => ¬ l.EndsLine) argument Form.arguments :=
  (yields_doubleString _).either <| (yields_construct _ _ _).either <| (yields_construct _ _ _).either <|
    (yields_globalMacro _).either <|
    (((yields_takeInError _).mono argument_le).on fun _ h => h.1.1.1.1.1).either <|
    (((yields_takeInError _).mono argument_le).on fun _ h => h.1.1.1.1.1.1).either <|
    yields_argumentToken _ fun _ h => h.1.1.1.1.1.1

theorem yields_arguments : Yields c arguments Form.arguments := yields_argument.many _

theorem yields_errorToken (problem : Problem) : Yields (fun l => ¬ l.EndsLine) (takeInError problem) (one .error) :=
  ((yields_argumentToken _ fun _ h => h).report_seq problem).node _ Item.arguments_le_error

/-- Where it opens nothing, an argument is the token ahead, alone or in a problem node. -/
theorem argument_cases {l m : Lexer} {items : List Item} (h : argument.leads l items m)
    (hopens : l.kind ∉ [Kind.doubleQuote, .compoundOpen, .backtick, .dollar]) :
    (∃ problem, (takeInError problem).leads l items m) ∨ l.kind ≠ .unknown ∧ (take .statement).leads l items m := by
  simp only [List.mem_cons, List.not_mem_nil, or_false, not_or] at hopens
  obtain ⟨hquote, hcompound, hbacktick, hdollar⟩ := hopens
  have h := (h.resolve_left fun hs => hquote hs.1).2
  have h := (h.resolve_left fun hs => hcompound hs.1).2
  have h := (h.resolve_left fun hs => hbacktick hs.1).2
  have h := (h.resolve_left fun hs => hdollar hs.1).2
  rcases h with ⟨-, h⟩ | ⟨-, ⟨-, h⟩ | ⟨hunknown, h⟩⟩
  · exact .inl ⟨_, h⟩
  · exact .inl ⟨_, h⟩
  · exact .inr ⟨hunknown, h⟩

theorem not_endsLine_of_isComment {l : Lexer} (h : l.kind.isComment = true) : ¬ l.EndsLine := by
  intro hl
  rcases hl with hl | hl <;> rw [hl] at h <;> cases h

theorem yields_commentToken : Yields (fun l => l.kind.isComment = true) argument (only IsRemark) := by
  intro l items m hl h
  have hopens : ∀ kind ∈ [Kind.doubleQuote, .compoundOpen, .backtick, .dollar], kind.isComment = false := by decide
  rcases argument_cases h fun hk => Bool.false_ne_true ((hopens _ hk).symm.trans hl) with ⟨problem, h⟩ | ⟨-, h⟩
  · exact ((yields_errorToken problem) (not_endsLine_of_isComment hl) h).mono (Form.only_le_only fun _ h => .inr h)
  · exact ((yields_take (p := fun k => k.isComment = true) .statement) hl h).mono
      (Form.only_le_only fun _ h => .inl h)

theorem isComment_of_atTrailingComment {l : Lexer} (h : AtTrailingComment l) : l.kind.isComment = true := by
  rcases h with h | h | h <;> rw [h] <;> rfl

theorem yields_trailingComments : Yields c trailingComments remarks :=
  ((yields_commentToken.mono (Form.only_le_each fun _ h => h)).on fun _ h =>
    isComment_of_atTrailingComment (Classical.not_not.mp h)).many _

theorem remarks_le_body : remarks ≤ body :=
  Form.each_le_each fun _ h => h.elim (fun h => .inr (.inl h)) fun h => .inr (.inr (.inr h))

theorem body_mul_body : body * body ≤ body := Form.each_mul_each _

theorem yields_remnant : Yields c remnant body :=
  ((yields_skip _).mono (Form.one_le_each _)).either
    (((yields_arguments.report_seq _).node _ Item.arguments_le_error).mono
      (Form.only_le_each fun _ h => .inr (.inr (.inr h))))

theorem newline_le_body : one .newline ≤ body := Form.only_le_each fun _ h => .inl h

theorem yields_endOfLine : Yields c endOfLine body := by
  have hbreak : Yields (fun _ => True) (eat .newline .statement) body :=
    (((yields_kind .newline _).mono newline_le_body).on fun _ h => h.2).either
      ((yields_skip _).mono (Form.one_le_each _))
  have hrest : Yields (fun _ => True) (remnant.seq (eat .newline .statement)) body :=
    (yields_remnant.seq hbreak).mono body_mul_body
  exact ((yields_trailingComments.mono remarks_le_body).seq hrest).mono body_mul_body

theorem yields_nameWord : Yields c nameWord (one .name) := (yields_word _ _ _).node _ le_rfl

theorem yields_name (problem : Problem) : Yields c (name problem) (.optional (one .name)) :=
  (yields_nameWord.mono Form.le_optional).either ((yields_report _ _).mono Form.one_le_optional)

/-! ## Simple statements -/

theorem yields_comment : Yields (fun l => l.kind.isComment = true) comment (one .comment) :=
  yields_commentToken.node _ le_rfl

theorem yields_blockClose : Yields (·.kind = .rightBrace) blockClose (one .blockClose) :=
  ((yields_kind _ _).seq yields_arguments).node _ le_rfl

theorem yields_macroDefinition : Yields c macroDefinition (one .macroDefinition) := by
  have hkeyword : Yields c (either (·.IsWordOf Grammar.localWords) (word .localKeyword .statement)
      (word .globalKeyword .statement)) (one .localKeyword + one .globalKeyword) :=
    ((yields_word _ _ _).mono fun _ h => .inl h).either ((yields_word _ _ _).mono fun _ h => .inr h)
  have hrow := hkeyword.seq ((yields_name .expectedMacroName).seq yields_arguments)
  rw [← mul_assoc] at hrow
  exact hrow.node _ fun _ h => .inl h

theorem yields_temporaryDefinition : Yields c temporaryDefinition (one .macroDefinition) := by
  have hnone : Yields (fun _ => True) (either Lexer.IsWord skip (report .expectedSomeName)) 1 :=
    (yields_skip _).either (yields_report _ _)
  have hnames : Yields (fun _ => True) (many (fun l => ¬ l.IsWord) nameWord) (.many .name) :=
    (yields_nameWord.mono (Form.only_le_each fun _ h => h)).many _
  have hkeyword : Yields c (word .tempKeyword .statement) (one .tempKeyword) := yields_word _ _ _
  have hrow := hkeyword.seq (hnone.seq (hnames.seq yields_trailingComments))
  rw [one_mul, ← mul_assoc] at hrow
  exact hrow.node _ fun _ h => .inr h

theorem yields_strayEnd : Yields c strayEnd (one .error) :=
  (((yields_word _ _ _).seq yields_trailingComments).report_seq _).node _ fun _ h => .inl (.inl (.inr h))

/-! ## Commands -/

theorem yields_commandPrefix : Yields c commandPrefix (one .commandPrefix) := by
  have hcolon : Yields (fun _ => True) (eat .colon .statement) (.optional (one .colon)) :=
    (((yields_kind .colon _).mono Form.le_optional).on fun _ h => h.2).either
      ((yields_skip _).mono Form.one_le_optional)
  exact ((yields_word _ _ _).seq hcolon).node _ le_rfl

theorem yields_commandName : Yields Lexer.IsWord commandHead (one .name) :=
  yields_nameWord.either (yields_absurd fun _ h => h.2 h.1)

theorem yields_unknown : Yields (·.kind = .unknown) argument (one .error) := by
  intro l items m hl h
  rcases argument_cases h (by rw [hl]; decide) with ⟨problem, h⟩ | ⟨hn, -⟩
  · exact yields_errorToken problem (not_endsLine_of_kind (by decide) (by decide) l hl) h
  · exact absurd hl hn

theorem yields_commandHead : Yields (fun l => ¬ l.EndsLine) commandHead (one .name + one .error) := by
  have herror : Yields (fun l => ¬ l.EndsLine) (node .error ((report .expectedCommandName).seq argument)
      Kind.isNode_error) (one .error) :=
    (yields_argument.report_seq _).node _ Item.arguments_le_error
  exact (yields_nameWord.mono fun _ h => .inl h).either <|
    ((yields_unknown.mono fun _ h => .inr h).on fun _ h => h.2).either <|
    (herror.mono fun _ h => .inr h).on fun _ h => h.1.1

/-- Behind a prefix comes a word, so only a command without prefixes can lack its name. -/
theorem prefixes_cases {l m : Lexer} {items : List Item}
    (h : (many (fun l => ¬ AtPrefix l) commandPrefix).leads l items m) : items = [] ∧ m = l ∨ m.IsWord := by
  induction h with
  | done => exact .inl ⟨rfl, rfl⟩
  | more hs first _ ih =>
    rcases ih with ⟨-, rfl⟩ | ih
    · exact .inr (isWord_of_commandPrefix (Classical.not_not.mp hs) first)
    · exact .inr ih

theorem yields_command : Yields (fun l => ¬ l.EndsLine) command (one .command) := by
  have hprefixes : Yields (fun _ => True) (many (fun l => ¬ AtPrefix l) commandPrefix) (.many .commandPrefix) :=
    (yields_commandPrefix.mono (Form.only_le_each fun _ h => h)).many _
  have hrow : Yields (fun l => ¬ l.EndsLine)
      ((many (fun l => ¬ AtPrefix l) commandPrefix).seq (commandHead.seq arguments))
      ((.many .commandPrefix * one .name + one .error) * Form.arguments) := by
    intro l _ _ hl h
    obtain ⟨is, m, _, hmany, ⟨js, m', ks, hhead, harguments, rfl⟩, rfl⟩ := h
    rw [← List.append_assoc]
    refine Item.Yield.append ?_ (yields_arguments (c := fun _ => True) trivial harguments)
    -- the head goes with the prefixes, for it must be a name behind them
    rcases prefixes_cases hmany with ⟨rfl, rfl⟩ | hword
    · have hnone : (one .name : Form) ≤ .many .commandPrefix * one .name := fun ts h =>
        Language.append_mem_mul (Form.one_le_each _ rfl : [] ∈ Form.many .commandPrefix) h
      exact (yields_commandHead hl hhead).mono (add_le_add_left hnone _)
    · exact ((hprefixes trivial hmany).append (yields_commandName hword hhead)).mono fun _ h => .inl h
  exact hrow.node _ le_rfl

/-! ## Blocks -/

def IsBlock (kind : Kind) (t : Tree) : Prop := t.kind = kind ∨ t.kind = .error

section
variable {kind : Kind} {hk : kind.isNode = true} {problem : Problem} {L M : Form} (herror : one kind ≤ Kind.error.form)
include herror

theorem Yields.ended (h : Yields c (R.upTo (·.kind ≠ .eof)) L) (h' : Yields c (R.upTo (·.kind = .eof)) M)
    (hform : L * (one .endKeyword * remarks) ≤ kind.form) (hform' : M ≤ kind.form) :
    Yields c (ended kind problem R hk) (only (IsBlock kind)) := by
  have hend : Yields (fun _ => True) ((word .endKeyword .statement Kind.endKeyword_mem_wordLabels).seq trailingComments)
      (one .endKeyword * remarks) := (yields_word _ _ _).seq yields_trailingComments
  exact ((h'.givenUp hk hform' herror).mono (Form.only_le_only fun _ h => .inr h)).or
    (((h.seq hend).node hk hform).mono (Form.only_le_only fun _ h => .inl h))

theorem Yields.delimited {closer : Kind} {span : Lexer → Lexer → Span} {outer : Mode} (h : Yields c R L)
    (hform : L * one closer ≤ kind.form) (hform' : L ≤ kind.form) :
    Yields c (Reading.delimited kind closer problem span outer R hk) (only (IsBlock kind)) := by
  have hgiven : Yields c ((Reading.givenUp kind problem span (R.upTo (·.kind ≠ closer)) hk).seq (relex outer))
      (one .error) :=
    (((h.upTo _).givenUp hk hform' herror).seq (yields_relex outer _)).mono (mul_one _).le
  exact (((h.upTo_seq (yields_kind closer outer)).node hk hform).mono (Form.only_le_only fun _ h => .inl h)).or
    (hgiven.mono (Form.only_le_only fun _ h => .inr h))

end

theorem mataBlock_le_error : one .mataBlock ≤ Kind.error.form := fun _ h => .inr h

theorem programDefinition_le_error : one .programDefinition ≤ Kind.error.form := fun _ h => .inl (.inr h)

theorem yields_leaves (mode : Mode) : Yields c (take mode) Form.leaves :=
  (yields_leaf mode c).mono (Form.only_le_each fun _ h => h)

theorem yields_mataOpening : Yields c mataOpening (one .mataKeyword * Form.leaves) :=
  (yields_word _ _ _).seq ((yields_leaves _).either ((yields_skip _).mono (Form.one_le_each _)))

theorem mataLeaves_le {L : Form} (h : L ≤ .optional (one .rightBrace + one .endKeyword * remarks)) :
    one .mataKeyword * Form.leaves * L ≤ Kind.mataBlock.form := mul_le_mul_right h _

theorem mataOpening_le : one .mataKeyword * Form.leaves ≤ Kind.mataBlock.form := Form.le_mul_optional _ _

theorem mataOpening_mul_leaves : one .mataKeyword * Form.leaves * Form.leaves ≤ one .mataKeyword * Form.leaves := by
  rw [mul_assoc]
  exact mul_le_mul_right (Form.each_mul_each _) _

theorem yields_mataBlock : Yields c mataBlock (only (IsBlock .mataBlock)) := by
  have hafter : ∀ (d : Lexer → Prop) {S : Reading}, Yields (fun _ => True) S Form.leaves →
      Yields c ((mataOpening.upTo d).seq S) (one .mataKeyword * Form.leaves) := fun d _ hS =>
    ((yields_mataOpening.upTo d).seq hS).mono mataOpening_mul_leaves
  have hcontent : Yields (fun _ => True) ((take .mataBrace).seq (eat .mataContent .mataBrace)) Form.leaves :=
    (yields_leaves _).append ((yields_leaves _).either ((yields_skip _).mono (Form.one_le_each _)))
  have hlines : Yields (fun _ => True) (many MataEnds (take .mataLine)) Form.leaves := (yields_leaves _).many _
  have hbraces : Yields c mataBraces (only (IsBlock .mataBlock)) :=
    (hafter _ hcontent).delimited mataBlock_le_error
      (mataLeaves_le fun _ h => .inr (.inl h)) mataOpening_le
  have hmultiline : Yields c mataLines (only (IsBlock .mataBlock)) :=
    ((hafter _ hlines).upTo _).ended mataBlock_le_error ((hafter _ hlines).upTo _)
      (mataLeaves_le fun _ h => .inr (.inr h)) mataOpening_le
  have hinline : Yields c mataInline (only (IsBlock .mataBlock)) :=
    ((hafter _ (yields_leaves _)).node _ mataOpening_le).mono (Form.only_le_only fun _ h => .inl h)
  exact hbraces.or (hmultiline.or hinline)

/-! ## Programs and lines -/

def headForm : Form :=
  one .programKeyword * .optional (one .defineKeyword) * .optional (one .name) * Form.arguments

theorem yields_programHead : Yields c programHead headForm := by
  have hdefine : Yields (fun _ => True) (either (·.IsWordOf ["define"]) (word .defineKeyword .statement) skip)
      (.optional (one .defineKeyword)) :=
    ((yields_word _ _ _).mono Form.le_optional).either ((yields_skip _).mono Form.one_le_optional)
  have hkeyword : Yields c (word .programKeyword .statement) (one .programKeyword) := yields_word _ _ _
  have hrow := hkeyword.seq (hdefine.seq ((yields_name .expectedProgramName).seq yields_arguments))
  rwa [← mul_assoc, ← mul_assoc] at hrow

theorem endsLine_of_programHead {l m : Lexer} {items : List Item} (h : programHead.leads l items m) : m.EndsLine := by
  obtain ⟨_, _, _, -, ⟨_, _, _, -, ⟨_, _, _, -, harguments, -⟩, -⟩, -⟩ := h
  exact stops_of_many harguments

theorem isBodyItem_of_kind {kind : Kind} (h : Typed.isStatement kind = true) : one kind ≤ only IsBodyItem :=
  Form.only_le_only fun t ht => .inr (.inr (.inl (by rw [ht, h])))

theorem isBodyItem_of_block {kind : Kind} (h : Typed.isStatement kind = true) : only (IsBlock kind) ≤ only IsBodyItem :=
  Form.only_le_only fun t ht => .inr (.inr (ht.imp_left fun ht => by rw [ht, h]))

theorem item_le_body : only IsBodyItem ≤ body := Form.only_le_each fun _ h => h

structure YieldsLines (line : Reading) : Prop where
  body : Yields (fun _ => True) line body
  newline : Yields (·.kind = .newline) line (one .newline)

section
variable {line : Reading} (h : YieldsLines line)
include h

theorem programLines_cases {l m : Lexer} {items : List Item} (hl : l.EndsLine)
    (hmany : (many ProgramEnds line).leads l items m) :
    items = [] ∧ m.kind = .eof ∨ Item.Yield (one .newline * body) items := by
  cases hmany with
  -- behind the head no word is ahead, so only the end of the text leaves the program without lines
  | done hends =>
    refine .inl ⟨rfl, hends.resolve_right fun hword => ?_⟩
    exact hword.1.not_endsLine hl
  | more hne first rest =>
    have hnewline : l.kind = .newline := hl.resolve_right fun he => hne (.inl he)
    have hbody : Yields (fun _ => True) (many ProgramEnds line) body := (h.body.on fun _ _ => trivial).many _
    exact .inr ((h.newline hnewline first).append (hbody trivial rest))

theorem yields_programDefinition : Yields c (programDefinition line) (only (IsBlock .programDefinition)) := by
  have hcases : ∀ {l items l'}, (programHead.seq (many ProgramEnds line)).leads l items l' →
      ∃ is js, items = is ++ js ∧ Item.Yield headForm is ∧
        (js = [] ∧ l'.kind = .eof ∨ Item.Yield (one .newline * body) js) := by
    intro l _ l' hR
    obtain ⟨is, m, js, hhead, hmany, rfl⟩ := hR
    exact ⟨is, js, rfl, yields_programHead (c := fun _ => True) trivial hhead,
      programLines_cases h (endsLine_of_programHead hhead) hmany⟩
  have hended : Yields c ((programHead.seq (many ProgramEnds line)).upTo (·.kind ≠ .eof))
      (headForm * (one .newline * body)) := by
    intro l _ l' _ hR
    obtain ⟨is, js, rfl, his, hjs⟩ := hcases hR.1
    exact his.append (hjs.resolve_left fun hj => hR.2 hj.2)
  have hopen : Yields c ((programHead.seq (many ProgramEnds line)).upTo (·.kind = .eof))
      (headForm * .optional (one .newline * body)) := by
    intro l _ l' _ hR
    obtain ⟨is, js, rfl, his, hjs⟩ := hcases hR.1
    rcases hjs with ⟨rfl, -⟩ | hjs
    · exact his.append ((Item.yield_nothing rfl).mono Form.one_le_optional)
    · exact his.append (hjs.mono Form.le_optional)
  have hform : headForm * (one .newline * body) * (one .endKeyword * remarks) ≤ Kind.programDefinition.form := by
    rw [mul_assoc]
    exact mul_le_mul_right (le_trans (mul_le_mul_right Form.le_optional _) Form.le_optional) _
  have hform' : headForm * .optional (one .newline * body) ≤ Kind.programDefinition.form :=
    mul_le_mul_right (Form.optional_le_optional (Form.le_mul_optional _ _)) _
  exact hended.ended programDefinition_le_error hopen hform hform'

theorem yields_statement : Yields (fun l => ¬ l.EndsLine) (statement line) (only IsBodyItem) :=
  ((yields_comment.mono (isBodyItem_of_kind rfl)).on fun _ h => h.2).either <|
    ((yields_blockClose.mono (isBodyItem_of_kind rfl)).on fun _ h => h.2).either <|
    ((yields_programDefinition h).mono (isBodyItem_of_block rfl)).either <|
    (yields_mataBlock.mono (isBodyItem_of_block rfl)).either <|
    (yields_macroDefinition.mono (isBodyItem_of_kind rfl)).either <|
    (yields_temporaryDefinition.mono (isBodyItem_of_kind rfl)).either <|
    (yields_strayEnd.mono (Form.only_le_only fun _ h => .inr (.inr (.inr h)))).either <|
    (yields_command.mono (isBodyItem_of_kind rfl)).on fun _ h => h.1.1.1.1.1.1.1

theorem yields_fullLine : Yields c (fullLine line) body := by
  have hcomments : Yields c (many (·.kind ≠ .blockComment) comment) body :=
    ((yields_comment.mono (Form.only_le_each fun t ht => .inr (.inr (.inl (by rw [ht]; rfl))))).on fun l hl => by
      rw [Classical.not_not.mp hl]
      rfl).many _
  have hstatement : Yields (fun _ => True) (either Lexer.EndsLine skip (statement line)) body :=
    ((yields_skip _).mono (Form.one_le_each _)).either
      (((yields_statement h).mono item_le_body).on fun _ hl => hl.2)
  exact hcomments.append (hstatement.append yields_endOfLine)

theorem yields_lineWith : YieldsLines (lineWith line) where
  body := Yields.when ((((yields_kind .newline _).mono newline_le_body).on fun _ h => h.2).either
    (yields_fullLine h))
  newline := Yields.when (((yields_kind .newline _).on fun _ h => h.2).either
    (yields_absurd fun _ h => h.2 h.1.1))

end

theorem yields_line : ∀ depth : Nat, YieldsLines (line depth)
  | 0 => ⟨fun _ _ _ _ h => h.elim, fun _ _ _ _ h => h.elim⟩
  | depth + 1 => yields_lineWith (yields_line depth)

theorem yields_lines (depth : Nat) : Yields c (lines depth) body :=
  ((yields_line depth).body.on fun _ _ => trivial).many _

end

end Dofile.Reading
