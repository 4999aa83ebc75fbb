import Dofile.Proofs.MataNode

/-!
# The head of a mata block

The head of a mata block is its keyword and a colon or none. What follows the head, blanks aside, decides which
of its forms the block has.
-/

namespace Dofile

open Reading (mataOpening)

/-- What follows the head of a mata block, blanks aside. The text is the one after the keyword. -/
def mataRest (after : List Char) : List Char :=
  match after.dropWhile isBlank with
  | ':' :: rest => rest.dropWhile isBlank
  | rest => rest

def Place.OpensMata (q : Place) (text head rest : List Char) : Prop :=
  head ++ rest = text ∧ ∃ before after, before ++ "mata".toList ++ after = text ∧ byteSize before = q.start ∧
    mataRest after = rest

def IsMataHead (start : Nat) (rs : List (Tree × Span)) : Prop :=
  ∃ colon, rs = (.leaf .mataKeyword "mata".toList, ⟨start, start + 4⟩) :: colon ∧
    (colon = [] ∨ ∃ offset, colon = [(.leaf .colon [':'], ⟨offset, offset + 1⟩)])

/-! ## Lexemes of a head -/

namespace Lexer

variable {l : Lexer}

theorem endsLine_iff (hm : l.mode ≠ .mataBrace) : l.EndsLine ↔ LineDone l.body := by
  cases hbody : l.body with
  | nil => exact iff_of_true (.inr (l.kind_eq_eof_iff.mpr hbody)) trivial
  | cons c rest =>
    have hnewline := Mode.lexeme_kind_eq_newline_iff hm l.fresh c rest
    rw [← hbody, ← kind_eq] at hnewline
    have heof : l.kind ≠ .eof := fun he => by
      rw [l.kind_eq_eof_iff.mp he] at hbody
      cases hbody
    rw [EndsLine, hnewline]
    exact or_iff_left heof

theorem body_of_text {c : Char} (h : l.ahead.text = [c]) : l.body = c :: l.after := by
  rw [← l.text_append_after, h]
  rfl

end Lexer

inductive HeadCase (l : Lexer) : Prop where
  | done (line : l.EndsLine) (body : Lexer.LineDone l.body)
  | colon (rest : List Char) (body : l.body = ':' :: rest) (kind : l.kind = .colon) (text : l.ahead.text = [':'])
  | brace (rest : List Char) (body : l.body = '{' :: rest) (kind : l.kind = .leftBrace) (text : l.ahead.text = ['{'])
  | content (c : Char) (rest : List Char) (body : l.body = c :: rest) (plain : isLineBreak c = false ∧ c ≠ ':' ∧ c ≠ '{')
    (kind : l.kind = .mataContent) (text : l.ahead.text = c :: Lexeme.restOfLine rest)

theorem Lexer.headCase {l : Lexer} (hmode : l.mode = .mataHead) : HeadCase l := by
  have hends := l.endsLine_iff (by rw [hmode]; decide)
  by_cases hline : LineDone l.body
  · exact .done (hends.mpr hline) hline
  obtain ⟨c, rest, hbody⟩ : ∃ c rest, l.body = c :: rest :=
    List.exists_cons_of_ne_nil fun hnil => hline (by rw [hnil]; trivial)
  rw [hbody] at hline
  have hc : isLineBreak c = false := Bool.eq_false_iff.mpr hline
  have hlexeme : l.mode.lexeme l.fresh l.body = Lexeme.mataHead (c :: rest) := by rw [hmode, hbody]; rfl
  rw [Lexeme.mataHead, if_neg (by simp [hc])] at hlexeme
  have hkind : l.kind = (l.mode.lexeme l.fresh l.body).kind := l.kind_eq
  have htext : l.ahead.text = (l.mode.lexeme l.fresh l.body).text := rfl
  rw [hlexeme] at hkind htext
  by_cases hcolon : c = ':'
  · subst hcolon
    exact .colon rest hbody hkind htext
  by_cases hbrace : c = '{'
  · subst hbrace
    exact .brace rest hbody hkind htext
  · rw [if_neg (by simpa using hcolon), if_neg (by simpa using hbrace)] at hkind htext
    exact .content c rest hbody ⟨hc, hcolon, hbrace⟩ hkind htext

theorem Lexer.leftBrace_iff {l : Lexer} (hmode : l.mode = .mataHead) :
    l.kind = .leftBrace ↔ ∃ inner, l.body = '{' :: inner := by
  cases l.headCase hmode with
  | brace rest hbody hkind => exact iff_of_true hkind ⟨rest, hbody⟩
  | done line hdone =>
    refine iff_of_false (fun hk => Reading.not_endsLine_of_kind (by decide) (by decide) l hk line) ?_
    rintro ⟨inner, hinner⟩
    rw [hinner] at hdone
    cases hdone
  | colon rest hbody hkind => exact iff_of_false (by rw [hkind]; decide) (by rw [hbody]; simp)
  | content c rest hbody hplain hkind =>
    refine iff_of_false (by rw [hkind]; decide) ?_
    rintro ⟨inner, hinner⟩
    exact hplain.2.2 (List.cons.inj (hbody.symm.trans hinner)).1

/-- The tokens of one character that a head can hold, or have behind it. -/
theorem Lexer.text_of_mark {l : Lexer} (hmode : l.mode = .mataHead) :
    (l.kind = .colon → l.ahead.text = [':']) ∧ (l.kind = .leftBrace → l.ahead.text = ['{']) := by
  cases l.headCase hmode with
  | done line =>
    exact ⟨fun hk => absurd line (Reading.not_endsLine_of_kind (by decide) (by decide) l hk),
      fun hk => absurd line (Reading.not_endsLine_of_kind (by decide) (by decide) l hk)⟩
  | colon _ _ hkind htext | brace _ _ hkind htext => simp [hkind, htext]
  | content _ _ _ _ hkind => simp [hkind]

/-! ## Heads -/

theorem mataRest_of_colon {after rest : List Char} (h : after.dropWhile isBlank = ':' :: rest) :
    mataRest after = rest.dropWhile isBlank := by
  unfold mataRest
  rw [h]
  rfl

theorem mataRest_of_ne {after : List Char} (h : ∀ rest, after.dropWhile isBlank ≠ ':' :: rest) :
    mataRest after = after.dropWhile isBlank := by
  unfold mataRest
  split
  · exact absurd ‹_› (h _)
  · rfl

section
variable {k o : Lexer} {is : List Item} (h : mataOpening.leads k is o)
include h

/-- The leaves of a head, and where the lexer stands behind it. -/
theorem head_of_opening (hword : k.ahead.text = "mata".toList) :
    IsMataHead k.ahead.start (Item.row k is) ∧ o.body = mataRest k.after := by
  obtain ⟨_, l, colon, ⟨hk, rfl, hl⟩, hcolon, rfl⟩ := h
  have hkeyword : Account k [.token k .mataKeyword] l := hl ▸ .word hk (by decide) _
  have hmode : l.mode = .mataHead := by rw [hl]; rfl
  have hbody : l.body = k.after.dropWhile isBlank := by
    rw [Lexer.body_eq_dropWhile (by rw [hmode]; rfl), hl]
    rfl
  have hspan : k.ahead.span = ⟨k.ahead.start, k.ahead.start + 4⟩ := by rw [Token.span, Token.stop, hword]; rfl
  rw [Item.row_append hkeyword, Item.row_token k (by decide), hword, hspan]
  rcases hcolon with ⟨hkind, -, rfl, rfl⟩ | ⟨hkind, rfl, rfl⟩
  · have htext := (Lexer.text_of_mark hmode).1 hkind
    refine ⟨⟨_, rfl, .inr ⟨l.ahead.start, ?_⟩⟩, ?_⟩
    · rw [Item.row_item, hkind, Token.span, Token.stop, htext]
      rfl
    · rw [Lexer.body_eq_dropWhile rfl, Lexer.next_rest, mataRest_of_colon (hbody ▸ Lexer.body_of_text htext)]
  · refine ⟨⟨[], rfl, .inl rfl⟩, ?_⟩
    rw [hbody, mataRest_of_ne fun rest hrest => hkind ?_]
    rw [← hbody] at hrest
    rw [Lexer.kind_eq, hrest, hmode]
    rfl

end

namespace Place.ReadsMata

variable {text : List Char} {q : Place} {b k o m e : Lexer} {bs ts : List Item} (h : q.ReadsMata text b k o bs m ts e)
include h

theorem mode_eq : o.mode = .mataHead := by
  obtain ⟨is, hopening⟩ := h.block.opening
  exact Reading.mode_of_mataOpening hopening

/-- A mata block opens where its keyword stands. -/
theorem opensMata : ∃ head, q.OpensMata text head o.body ∧ byteSize head = o.ahead.start := by
  obtain ⟨is, hopening⟩ := h.block.opening
  obtain ⟨hbefore, htext, hoffset, -⟩ := ((mataOpening.account hopening).stands h.stands).1
  obtain ⟨before, hktext, hkoffset, -⟩ := h.stands
  refine ⟨hbefore ++ o.leading, ⟨?_, before ++ k.leading, k.after, ?_, ?_, (head_of_opening hopening h.word).2.symm⟩, ?_⟩
  · rw [List.append_assoc, o.leading_append_body, htext]
  · rw [List.append_assoc, List.append_assoc, ← h.word, k.text_append_after, k.leading_append_body, hktext]
  · rw [byteSize_append, ← hkoffset, h.start_eq]
    rfl
  · rw [byteSize_append, ← hoffset]
    rfl

end Place.ReadsMata

end Dofile
