import Dofile.Proofs.MataBraces
import Dofile.Proofs.Unbroken

/-!
# Stars at the start of a line

Only a line break leads to a star with nothing but blanks before it on its line. What holds no line
break comes upon none, so such a star is taken where a statement begins, as a comment of its own, or
it is content of a mata block.
-/

namespace Dofile

open Reading (comment argument arguments command programHead programDefinition statement fullLine lineWith line lines
  mataBlock trailingComments remnant endOfLine many eat take word ProgramEnds MataEnds)

namespace Lexeme

/-- A comment that begins with a star is the rest of a line, from the star that the line begins with. -/
theorem statementFrom_star_cases {fresh : Bool} {c : Char} {rest : List Char} {x : Lexeme}
    (hx : statementFrom fresh c rest = x) (hk : x.kind = .starComment) :
    c = '*' ∧ fresh = true ∧ x.text = '*' :: restOfLine rest := by
  rw [statementFrom] at hx
  rcases ite_eq_iff.mp hx with ⟨-, rfl⟩ | ⟨-, hx⟩; · cases hk
  rcases ite_eq_iff.mp hx with ⟨hstar, rfl⟩ | ⟨-, hx⟩
  · simp only [Bool.and_eq_true, beq_iff_eq] at hstar
    exact ⟨hstar.1, hstar.2, by rw [hstar.1]⟩
  rcases ite_eq_iff.mp hx with ⟨-, rfl⟩ | ⟨-, hx⟩; · cases hk
  rcases ite_eq_iff.mp hx with ⟨-, rfl⟩ | ⟨-, hx⟩; · cases hk
  rcases ite_eq_iff.mp hx with ⟨-, rfl⟩ | ⟨-, hx⟩; · cases hk
  rcases ite_eq_iff.mp hx with ⟨-, rfl⟩ | ⟨-, hx⟩; · cases hk
  rcases ite_eq_iff.mp hx with ⟨-, rfl⟩ | ⟨-, hx⟩
  · unfold dot at hk
    split at hk; · cases hk
    split at hk; · cases hk
    split at hk <;> cases hk
  rcases ite_eq_iff.mp hx with ⟨-, rfl⟩ | ⟨-, hx⟩
  · simp only [Word.classify] at hk
    split at hk; · cases hk
    split at hk; · cases hk
    split at hk <;> cases hk
  split at hx
  · rename_i hp
    subst hx hk
    unfold punctuation? at hp
    split at hp <;> cases hp
  rcases ite_eq_iff.mp hx with ⟨-, rfl⟩ | ⟨-, hx⟩; · cases hk
  rcases ite_eq_iff.mp hx with ⟨-, rfl⟩ | ⟨-, hx⟩; · cases hk
  rcases ite_eq_iff.mp hx with ⟨-, rfl⟩ | ⟨-, rfl⟩ <;> cases hk

theorem statement_star_cases {fresh : Bool} {text : List Char} (hk : (statement fresh text).kind = .starComment) :
    fresh = true ∧ ∃ rest, text = '*' :: rest ∧ (statement fresh text).text = '*' :: restOfLine rest := by
  unfold statement at hk ⊢
  split at hk
  · cases hk
  · simp only at hk
    split at hk <;> cases hk
  · cases hk
  · cases hk
  · rename_i c rest _ _ _
    obtain ⟨rfl, hfresh, htext⟩ := statementFrom_star_cases rfl hk
    exact ⟨hfresh, rest, rfl, htext⟩

end Lexeme

theorem freshAfter_oneLine {fresh : Bool} {text : List Char} (h : OneLine text) (hfresh : freshAfter fresh text = true) :
    fresh = true ∧ ∀ c ∈ text, isBlank c = true := by
  induction text generalizing fresh with
  | nil => exact ⟨hfresh, fun _ hc => by cases hc⟩
  | cons c text ih =>
    rw [← List.singleton_append, freshAfter_append] at hfresh
    obtain ⟨hc, hblanks⟩ := ih (fun d hd => h d (List.mem_cons_of_mem c hd)) hfresh
    have hbreak := h c List.mem_cons_self
    simp only [freshAfter, List.foldl_cons, List.foldl_nil, hbreak, Bool.false_or, Bool.and_eq_true] at hc
    exact ⟨hc.1, List.forall_mem_cons.mpr ⟨hc.2, hblanks⟩⟩

namespace Lexer

def AtStar (l : Lexer) : Prop := l.fresh = true ∧ (l.rest.dropWhile isBlank).head? = some '*'

variable {l : Lexer}

theorem AtStar.head (h : l.AtStar) : (l.body.dropWhile isBlank).head? = some '*' := by
  have hrest := h.2
  rwa [← l.leading_append_body, List.dropWhile_append_of_pos fun c hc => isBlank_of_mem_leading hc] at hrest

theorem AtStar.body (h : l.AtStar) (hm : l.mode.skipsBlanks = true) : ∃ rest, l.body = '*' :: rest := by
  rw [body_eq_dropWhile hm]
  exact List.head?_eq_some_iff.mp h.2

theorem not_atStar_of_body {c : Char} {rest : List Char} (h : l.body = c :: rest) (hb : isBlank c = false)
    (hc : c ≠ '*') : ¬ l.AtStar := by
  intro hstar
  have hhead := hstar.head
  rw [h, List.dropWhile_cons_of_neg (by simp [hb])] at hhead
  exact hc (Option.some.inj hhead)

theorem not_atStar_of_endsLine (h : l.EndsLine) : ¬ l.AtStar := by
  rcases h with h | h
  · obtain ⟨hne, hbreaks⟩ := breaks_of_newline h
    obtain ⟨c, text, htext⟩ := List.exists_cons_of_ne_nil hne
    have hc : isLineBreak c = true := hbreaks c (by rw [htext]; exact List.mem_cons_self)
    have hbody := l.text_append_after
    rw [htext] at hbody
    exact not_atStar_of_body hbody.symm (isBlank_of_isLineBreak hc) fun hstar => by rw [hstar] at hc; cases hc
  · intro hstar
    have hhead := hstar.head
    rw [l.kind_eq_eof_iff.mp h] at hhead
    cases hhead

theorem AtStar.kind_of_statement (h : l.AtStar) (hl : l.SameIn .statement) : l.kind = .starComment := by
  have hm : l.mode = .statement := hl.resolve_right fun he => not_atStar_of_endsLine (.inr he) h
  obtain ⟨rest, hbody⟩ := h.body (by rw [hm]; rfl)
  rw [kind_eq, hm, hbody, h.1]
  rfl

theorem AtStar.kind_of_mata (h : l.AtStar) (hl : l.mode = .mataHead ∨ l.mode = .mataLine) : l.kind = .mataContent := by
  rcases hl with hm | hm
  · obtain ⟨rest, hbody⟩ := h.body (by rw [hm]; rfl)
    rw [kind_eq, hm, hbody]
    rfl
  · obtain ⟨rest, hbody⟩ := h.body (by rw [hm]; rfl)
    rw [kind_eq, hm, hbody]
    rfl

/-- A comment that begins with a star is read in statements, at the start of its line. -/
theorem of_starComment (h : l.kind = .starComment) : l.mode = .statement ∧ l.AtStar ∧
    ∃ rest, l.body = '*' :: rest ∧ l.ahead.text = '*' :: Lexeme.restOfLine rest := by
  have hm : l.mode = .statement := by
    rcases l.kind_cases with hk | hk | hk
    · rw [h] at hk; cases hk
    · rw [h] at hk; cases hk
    · rw [h] at hk
      revert hk
      cases l.mode <;> decide
  rw [kind_eq, hm] at h
  obtain ⟨hfresh, rest, hbody, htext⟩ := Lexeme.statement_star_cases h
  refine ⟨hm, ⟨hfresh, ?_⟩, rest, hbody, ?_⟩
  · rw [← body_eq_dropWhile (by rw [hm]; rfl), hbody]
    rfl
  · rw [ahead_eq, hm]
    exact htext

/-- A star at the start of a line is ahead already where only some of that line stands before it. -/
theorem atStar_of_passed {x y : List Char} (h : l.body = x ++ y) (hx : OneLine x) (hfresh : freshAfter l.fresh x = true)
    (hy : (y.dropWhile isBlank).head? = some '*') : l.AtStar ∧ ∀ c ∈ x, isBlank c = true := by
  obtain ⟨hl, hblanks⟩ := freshAfter_oneLine hx hfresh
  refine ⟨⟨hl, ?_⟩, hblanks⟩
  rwa [← l.leading_append_body, List.dropWhile_append_of_pos fun c hc => isBlank_of_mem_leading hc, h,
    List.dropWhile_append_of_pos hblanks]

/-- Of what is content of a mata block, only that in braces takes up several lines. -/
theorem mode_of_content (h : l.kind = .mataContent) (hlines : ¬ OneLine l.ahead.text) : l.mode = .mataBrace := by
  by_contra hm
  apply hlines
  rw [kind_eq] at h
  rw [ahead_eq]
  cases hbody : l.body with
  | nil => rw [Mode.lexeme_nil]; exact oneLine_nil
  | cons c rest =>
    rw [hbody] at h
    cases hline : isLineBreak c with
    | true => rw [Mode.lexeme_kind_of_lineBreak hm l.fresh hline rest] at h; cases h
    | false => exact Mode.oneLine_lexeme hm l.fresh hline rest (by rw [h]; decide)

/-- The content of a mata block in braces goes on to the end of the text, or up to a brace. -/
theorem after_of_content (hm : l.mode = .mataBrace) (h : l.kind = .mataContent) :
    l.after = [] ∨ ∃ more, l.after = '}' :: more := by
  have hbody : l.body = l.rest := body_of_skipsBlanks_eq_false (by rw [hm]; rfl)
  cases braceCase hm with
  | done _ kind => rw [h] at kind; cases kind
  | close _ _ kind => rw [h] at kind; cases kind
  | content _ _ text =>
    obtain ⟨rest, happend, hrest⟩ := Lexeme.braceContent_rest 0 l.rest
    have hafter := l.text_append_after
    rw [text, hbody] at hafter
    rw [List.append_cancel_left (hafter.trans happend.symm)]
    exact hrest.imp_right And.left

theorem not_fresh_of_comment (hk : l.kind = .blockComment) (hopen : ¬ Reading.AtOpenComment l) (fresh : Bool) :
    freshAfter fresh l.ahead.fullText = false := by
  have hclosed : Lexeme.isTerminatedBlockComment l.ahead.text = true := by
    by_contra h
    exact hopen ⟨hk, Bool.eq_false_iff.mpr h⟩
  simp only [Lexeme.isTerminatedBlockComment, Bool.and_eq_true] at hclosed
  obtain ⟨front, htext⟩ := List.isSuffixOf_iff_suffix.mp hclosed.2
  rw [Token.fullText, ← htext, ← List.append_assoc, freshAfter_append]
  simp [freshAfter, isLineBreak, isBlank]

/-- Behind a token, only a line break leads to a star at the start of a line where there was none. -/
theorem star_behind {mode : Mode} (h : (l.next mode).AtStar) :
    l.kind = .newline ∨ l.AtStar ∧ ∀ c ∈ l.ahead.text, isBlank c = true := by
  have hfresh : freshAfter l.fresh l.ahead.fullText = true := h.1
  have hstar : (l.after.dropWhile isBlank).head? = some '*' := h.2
  by_cases hone : OneLine l.ahead.text
  · have hleading : freshAfter l.fresh l.ahead.leading = l.fresh :=
      freshAfter_blanks l.fresh fun c hc => isBlank_of_mem_leading (l := l) hc
    rw [Token.fullText, freshAfter_append, hleading] at hfresh
    exact .inr (atStar_of_passed l.text_append_after.symm hone hfresh hstar)
  have hacross : l.kind ∈ Kind.acrossLines := Classical.byContradiction fun hk => hone (oneLine_text hk)
  simp only [Kind.acrossLines, List.mem_cons, List.not_mem_nil, or_false] at hacross
  rcases hacross with hk | hk | hk
  · exact .inl hk
  · by_cases hopen : Reading.AtOpenComment l
    · rw [after_of_openComment hopen] at hstar
      cases hstar
    · rw [not_fresh_of_comment hk hopen] at hfresh
      cases hfresh
  · rcases after_of_content (mode_of_content hk hone) hk with hafter | ⟨more, hafter⟩ <;> rw [hafter] at hstar <;>
      cases hstar

theorem not_atStar_next (hk : l.kind ≠ .newline) (hl : ¬ l.AtStar) (mode : Mode) : ¬ (l.next mode).AtStar := fun h =>
  (star_behind h).elim hk fun hstar => hl hstar.1

theorem not_atStar_behind_comment (hk : l.kind = .starComment) (mode : Mode) : ¬ (l.next mode).AtStar := by
  intro h
  obtain ⟨-, -, rest, -, htext⟩ := of_starComment hk
  rcases star_behind h with hnewline | ⟨-, hblanks⟩
  · rw [hk] at hnewline
    cases hnewline
  · rw [htext] at hblanks
    exact absurd (hblanks '*' List.mem_cons_self) (by decide)

end Lexer

/-! ## Where comments stand -/

def Tree.HoldsStars (t : Tree) : Prop := t.kind ≠ .comment → ∀ u ∈ t.children, u.kind ≠ .starComment

namespace Item

structure KeepStars (items : List Item) : Prop where
  taken : ∀ t ∈ takenAll items, t.1.AtStar → t.2 = .starComment ∨ t.2 = .mataContent
  held : ∀ t ∈ trees items, t.kind ≠ .starComment ∧ t.All Tree.HoldsStars

variable {l : Lexer} {kind : Kind} {is js : List Item}

theorem keepStars_nil : KeepStars [] where
  taken t ht := by cases ht
  held t ht := by cases ht

theorem keepStars_found (f : Finding) : KeepStars [.found f] where
  taken t ht := by cases ht
  held t ht := by cases ht

theorem KeepStars.append (h : KeepStars is) (h' : KeepStars js) : KeepStars (is ++ js) where
  taken t ht := by
    rw [takenAll_append, List.mem_append] at ht
    exact ht.elim (h.taken t) (h'.taken t)
  held := forall_trees_append h.held h'.held

theorem keepStars_token (hl : l.AtStar → kind = .mataContent) (hk : kind ≠ .starComment) : KeepStars [.token l kind] where
  taken := List.forall_mem_singleton.mpr fun hstar => .inr (hl hstar)
  held := List.forall_mem_singleton.mpr ⟨hk, fun _ u hu => by cases hu⟩

theorem keepStars_item (hl : ¬ l.AtStar) : KeepStars [l.item] :=
  keepStars_token (absurd · hl) fun hk => hl (Lexer.of_starComment hk).2.1

/-- A node over the trees of some items, with blanks between them. -/
theorem KeepStars.over (h : KeepStars is) (kind : Kind) {ts : List Tree} (hspaced : Spaced is ts) :
    (Tree.node kind ts).All Tree.HoldsStars := by
  have hchild : ∀ t ∈ ts, t.kind ≠ .starComment ∧ t.All Tree.HoldsStars :=
    hspaced.forall h.held fun _ => ⟨nofun, nofun⟩
  exact Tree.all_node (fun _ t ht => (hchild t ht).1) fun t ht => (hchild t ht).2

theorem ne_starComment_of_isNode (h : kind.isNode = true) : kind ≠ .starComment := by
  intro hk
  rw [hk] at h
  cases h

theorem KeepStars.node (h : KeepStars is) (hk : kind.isNode = true) : KeepStars [.node kind is] where
  taken t ht := by
    rw [takenAll, Item.taken, takenAll, List.append_nil] at ht
    exact h.taken t ht
  held := List.forall_mem_singleton.mpr ⟨ne_starComment_of_isNode hk, h.over kind (spaced_waiting is)⟩

theorem KeepStars.enclosed (h : KeepStars is) (hk : kind.isNode = true) : KeepStars [.enclosed kind is] where
  taken t ht := by
    rw [takenAll, Item.taken, takenAll, List.append_nil] at ht
    exact h.taken t ht
  held := List.forall_mem_singleton.mpr ⟨nofun,
    fun _ => List.forall_mem_singleton.mpr (ne_starComment_of_isNode hk), h.over kind (spaced_waiting is), trivial⟩

/-- A comment that begins with a star, in its node. -/
theorem keepStars_comment (hk : l.kind = .starComment) : KeepStars [.node .comment [l.item]] where
  taken := List.forall_mem_singleton.mpr fun _ => .inl hk
  held := List.forall_mem_singleton.mpr ⟨nofun,
    Tree.all_node (fun hne => absurd rfl hne) (List.forall_mem_singleton.mpr nofun)⟩

end Item

open Item (KeepStars keepStars_nil keepStars_found keepStars_token keepStars_item keepStars_comment)

/-- From where no star is ahead at the start of a line, none is met up to the next line break. -/
theorem Account.keepStars {l m : Lexer} {items : List Item} (h : Account l items m)
    (hbreak : ∀ t ∈ Item.trees items, t.Lacks [.newline]) (hl : ¬ l.AtStar) : KeepStars items ∧ ¬ m.AtStar := by
  induction h with
  | skip => exact ⟨keepStars_nil, hl⟩
  | relex => exact ⟨keepStars_nil, hl⟩
  | found => exact ⟨keepStars_found _, hl⟩
  | @take l he mode =>
    have hk : l.kind ≠ .newline := fun hk => hbreak _ (List.mem_singleton_self _) (List.mem_singleton.mpr hk)
    exact ⟨keepStars_item hl, Lexer.not_atStar_next hk hl mode⟩
  | @word l hw kind hk mode =>
    refine ⟨keepStars_token (absurd · hl) fun hstar => ?_,
      Lexer.not_atStar_next (fun he => hw.not_endsLine (.inl he)) hl mode⟩
    rw [hstar] at hk
    exact absurd hk (by decide)
  | node hk h ih =>
    obtain ⟨hitems, hm⟩ := ih (Tree.Lacks.inside (hbreak _ (List.mem_singleton_self _))) hl
    exact ⟨hitems.node hk, hm⟩
  | enclosed hk h ih =>
    obtain ⟨hitems, hm⟩ := ih (Tree.Lacks.inside (hbreak _ (List.mem_singleton_self _)).2.1) hl
    exact ⟨hitems.enclosed hk, hm⟩
  | append _ _ ih ih' =>
    rw [Item.trees_append] at hbreak
    obtain ⟨his, hk⟩ := ih (fun t ht => hbreak t (List.mem_append_left _ ht)) hl
    obtain ⟨hjs, hm⟩ := ih' (fun t ht => hbreak t (List.mem_append_right _ ht)) hk
    exact ⟨his.append hjs, hm⟩

namespace Reading

section
variable {R : Reading} {l m n o : Lexer} {items is js : List Item}

theorem Unbroken.keepStars (h : R.Unbroken) (hl : ¬ l.AtStar) (hR : R.leads l items m) : KeepStars items ∧ ¬ m.AtStar :=
  (R.account hR).keepStars (h hR) hl

/-- What ends a line takes its line break last. -/
theorem keepStars_endOfLine (hl : ¬ l.AtStar) (hR : endOfLine.leads l items m) : KeepStars items := by
  obtain ⟨cs, k, _, hcomments, ⟨rs, n, bs, hrest, hbreak, rfl⟩, rfl⟩ := hR
  obtain ⟨hcs, hk⟩ := unbroken_trailingComments.keepStars hl hcomments
  obtain ⟨hrs, hn⟩ := unbroken_remnant.keepStars hk hrest
  refine hcs.append (hrs.append ?_)
  rcases hbreak with ⟨-, -, rfl, -⟩ | ⟨-, rfl, -⟩
  · exact keepStars_item hn
  · exact keepStars_nil

/-! ## Mata blocks -/

/-- The lines of a mata block. A star that one of them begins with is content. -/
theorem keepStars_mataLines (h : (many MataEnds (take .mataLine)).leads o js n)
    (ho : o.mode = .mataHead ∨ o.mode = .mataLine) : KeepStars js ∧ ¬ n.AtStar := by
  induction h with
  | @done n hends =>
    refine ⟨keepStars_nil, fun hstar => ?_⟩
    have hk := hstar.kind_of_mata ho
    rcases hends with he | he <;> rw [hk] at he <;> cases he
  | @more o _ _ _ _ _ first _ ih =>
    obtain ⟨-, rfl, rfl⟩ := first
    obtain ⟨hjs, hn⟩ := ih (.inr rfl)
    refine ⟨.append (keepStars_token (·.kind_of_mata ho) fun hstar => ?_) hjs, hn⟩
    rw [(Lexer.of_starComment hstar).1] at ho
    rcases ho with ho | ho <;> cases ho

theorem keepStars_mataBlock (hl : ¬ l.AtStar) (hR : mataBlock.leads l items m) : KeepStars items ∧ ¬ m.AtStar := by
  obtain ⟨o, h⟩ := mataCase hR
  obtain ⟨_, hopening⟩ := h.opening
  have ho : ¬ o.AtStar := (unbroken_mataOpening.keepStars hl hopening).2
  have hopened : ∀ {is : List Item}, mataOpening.leads l is o → KeepStars is := fun opening =>
    (unbroken_mataOpening.keepStars hl opening).1
  have hcontent : ∀ {js : List Item} {n : Lexer}, o.kind = .leftBrace →
      (eat .mataContent .mataBrace).leads (o.next .mataBrace) js n → KeepStars js ∧ ¬ n.AtStar := fun brace content =>
    (unbroken_eat (by decide) _).keepStars (Lexer.not_atStar_next (by rw [brace]; decide) ho _) content
  cases h with
  | braces opening brace content closer =>
    obtain ⟨hjs, hn⟩ := hcontent brace content
    exact ⟨(((hopened opening).append ((keepStars_item ho).append hjs)).append (keepStars_item hn)).node (by decide),
      Lexer.not_atStar_next (by rw [closer]; decide) hn _⟩
  | openBraces opening brace content closer =>
    obtain ⟨hjs, hn⟩ := hcontent brace content
    exact ⟨(((hopened opening).append ((keepStars_item ho).append hjs)).append (keepStars_found _)).enclosed (by decide),
      hn⟩
  | lines opening line content closer comments =>
    obtain ⟨hjs, hn⟩ := keepStars_mataLines content (.inl (mode_of_mataOpening opening))
    obtain ⟨hcs, hm⟩ := unbroken_trailingComments.keepStars (Lexer.not_atStar_next (by rw [closer]; decide) hn _) comments
    exact ⟨(((hopened opening).append hjs).append ((keepStars_token (absurd · hn) (by decide)).append hcs)).node
      (by decide), hm⟩
  | openLines opening line content closer =>
    obtain ⟨hjs, hn⟩ := keepStars_mataLines content (.inl (mode_of_mataOpening opening))
    exact ⟨(((hopened opening).append hjs).append (keepStars_found _)).enclosed (by decide), hn⟩
  | inline opening brace line =>
    exact ⟨((hopened opening).append (keepStars_item ho)).node (by decide),
      Lexer.not_atStar_next (fun hk => line (.inl hk)) ho _⟩

end

/-! ## Statements and lines -/

def KeepsStars (R : Reading) : Prop := ∀ ⦃l items m⦄, l.SameIn .statement → R.leads l items m → KeepStars items

section
variable {line : Reading} {l m : Lexer} {items : List Item}

/-- A star that a statement begins with is a comment up to the end of its line. -/
theorem leads_starComment (hk : l.kind = .starComment) (hR : (statement line).leads l items m) :
    items = [.node .comment [l.item]] ∧ m = l.next .statement := by
  have hcomment : l.kind.isComment = true := by rw [hk]; rfl
  have hR := hR.resolve_right fun hne => hne.1 hcomment
  obtain ⟨-, is, hargument, rfl⟩ := hR
  have his : is = [l.item] := (argument_of_comment hcomment hargument).resolve_right fun hblock => by
    rw [hk] at hblock
    cases hblock.1
  have hopens : l.kind ∉ [Kind.doubleQuote, .compoundOpen, .backtick, .dollar] := by rw [hk]; decide
  refine ⟨by rw [his], ?_⟩
  rcases argument_cases hargument hopens with ⟨problem, _, ⟨_, _, _, ⟨-, rfl⟩, ⟨-, -, hm⟩, -⟩, -⟩ | ⟨-, -, -, hm⟩
  · exact hm
  · exact hm

/-- Programs and mata blocks are the only statements that take up several lines. -/
theorem unbroken_statement (hl : ¬ l.EndsLine) (hR : (statement line).leads l items m) :
    (∀ t ∈ Item.trees items, t.Lacks [.newline]) ∨ (programDefinition line).leads l items m ∨
      mataBlock.leads l items m := by
  rcases hR with ⟨hcomment, hR⟩ | ⟨-, ⟨hbrace, hR⟩ | ⟨-, ⟨-, hR⟩ | ⟨-, ⟨-, hR⟩ | ⟨-, ⟨-, hR⟩ | ⟨-, ⟨-, hR⟩ |
    ⟨-, ⟨-, hR⟩ | ⟨-, hR⟩⟩⟩⟩⟩⟩⟩
  · exact .inl (unbroken_comment ⟨hcomment, hR⟩)
  · exact .inl (unbroken_blockClose ⟨hbrace, hR⟩)
  · exact .inr (.inl hR)
  · exact .inr (.inr hR)
  · exact .inl (unbroken_macroDefinition hR)
  · exact .inl (unbroken_temporaryDefinition hR)
  · exact .inl (unbroken_strayEnd hR)
  · exact .inl (unbroken_command ⟨hl, hR⟩)

variable (h : line.KeepsStars) (hreads : ReadsStatement line)
include h hreads

theorem keepStars_many {stops : Lexer → Prop} (hl : l.SameIn .statement) (hR : (many stops line).leads l items m) :
    KeepStars items := by
  induction hR with
  | done => exact keepStars_nil
  | more _ first _ ih => exact (h hl first).append (ih (hreads first hl).1)

theorem keepStars_programDefinition (hl : l.SameIn .statement) (hstar : ¬ l.AtStar)
    (hR : (programDefinition line).leads l items m) : KeepStars items ∧ ¬ m.AtStar := by
  have hbody : ∀ {is : List Item} {n : Lexer}, (programHead.seq (many ProgramEnds line)).leads l is n →
      KeepStars is ∧ ¬ n.AtStar := by
    intro is n hR
    have hn := ((reads_programHead.seq (hreads.many _)) hR hl).1
    obtain ⟨hs, k, ls, hhead, hlines, rfl⟩ := hR
    have hhs := (unbroken_programHead.keepStars hstar hhead).1
    refine ⟨hhs.append (keepStars_many h hreads (reads_programHead hhead hl).1 hlines), fun hat => ?_⟩
    have hk := hat.kind_of_statement hn
    rcases stops_of_many hlines with he | he
    · rw [hk] at he
      cases he
    · have hword := he.1
      rw [Lexer.IsWord, hk] at hword
      exact absurd hword (by decide)
  rcases hR with ⟨is, ⟨hR, -⟩, -, rfl⟩ | ⟨_, ⟨is, n, _, ⟨hR, -⟩, ⟨_, _, cs, ⟨hword, rfl, rfl⟩, hcomments, rfl⟩, rfl⟩, rfl⟩
  · obtain ⟨his, hm⟩ := hbody hR
    exact ⟨(his.append (keepStars_found _)).enclosed (by decide), hm⟩
  · obtain ⟨his, hn⟩ := hbody hR
    have hbehind := Lexer.not_atStar_next (fun hk => hword.not_endsLine (.inl hk)) hn .statement
    obtain ⟨hcs, hm⟩ := unbroken_trailingComments.keepStars hbehind hcomments
    exact ⟨(his.append ((keepStars_token (absurd · hn) (by decide)).append hcs)).node (by decide), hm⟩

theorem keepStars_statement (hl : l.SameIn .statement) (hline : ¬ l.EndsLine) (hR : (statement line).leads l items m) :
    KeepStars items ∧ ¬ m.AtStar := by
  by_cases hstar : l.AtStar
  · have hk := hstar.kind_of_statement hl
    obtain ⟨rfl, rfl⟩ := leads_starComment hk hR
    exact ⟨keepStars_comment hk, Lexer.not_atStar_behind_comment hk _⟩
  · rcases unbroken_statement hline hR with hbreak | hprogram | hmata
    · exact ((statement line).account hR).keepStars hbreak hstar
    · exact keepStars_programDefinition h hreads hl hstar hprogram
    · exact keepStars_mataBlock hstar hmata

theorem keepStars_fullLine : (fullLine line).KeepsStars := by
  intro l items m hl hR
  obtain ⟨cs, k, _, hcomments, ⟨ss, e, es, hstatement, hend, rfl⟩, rfl⟩ := hR
  have hk := (reads_comment.many _ hcomments hl).1
  have hcs : KeepStars cs := by
    by_cases hstar : l.AtStar
    · cases hcomments with
      | done => exact keepStars_nil
      | more hblock => exact absurd (hstar.kind_of_statement hl) fun he => hblock (by rw [he]; decide)
    · refine (Unbroken.keepStars ?_ hstar hcomments).1
      refine unbroken_many fun l items m hR => unbroken_comment ⟨?_, hR.2⟩
      show l.kind.isComment = true
      rw [Classical.not_not.mp hR.1]
      rfl
  refine hcs.append ?_
  rcases hstatement with ⟨hends, rfl, rfl⟩ | ⟨hline, hstatement⟩
  · exact keepStars_endOfLine (Lexer.not_atStar_of_endsLine hends) hend
  · obtain ⟨hss, he⟩ := keepStars_statement h hreads hk hline hstatement
    exact hss.append (keepStars_endOfLine he hend)

theorem keepStars_lineWith : (lineWith line).KeepsStars := by
  intro l items m hl hR
  rcases hR.2 with ⟨hnewline, -, rfl, -⟩ | ⟨-, hR⟩
  · exact keepStars_item (Lexer.not_atStar_of_endsLine (.inl hnewline))
  · exact keepStars_fullLine h hreads hl hR

end

theorem keepStars_line : ∀ depth : Nat, (line depth).KeepsStars
  | 0 => fun _ _ _ _ hR => hR.elim
  | depth + 1 => keepStars_lineWith (keepStars_line depth) (reads_line depth)

theorem keepStars_lines (depth : Nat) : (lines depth).KeepsStars := fun _ _ _ hl hR =>
  keepStars_many (keepStars_line depth) (reads_line depth) hl hR

end Reading

end Dofile
