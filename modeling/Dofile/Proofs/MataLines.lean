import Dofile.Proofs.MataHead
import Mathlib.Data.List.TakeWhile

/-!
# Mata blocks of several lines

A mata block of several lines goes up to the first line that is an `end`, whatever stands in the lines before it.
What is in them is opaque: a line is one leaf, from its first character that is no blank up to its line break.
-/

namespace Dofile

open Reading (mataOpening MataEnds many take)

/-- Whether a line, with all that follows it, is an `end` between blanks, before a comment or the end of the line. -/
def EndsMata (line : List Char) : Prop :=
  ∃ indent gap after, line = indent ++ "end".toList ++ gap ++ after ∧ (∀ c ∈ indent ++ gap, isBlank c = true) ∧
    (Lexer.LineDone after ∨ "//".toList <+: after ∨ "/*".toList <+: after)

/-! ## Blanks -/

theorem isBlank_head_dropWhile {text rest : List Char} {c : Char} (h : text.dropWhile isBlank = c :: rest) :
    isBlank c = false := by
  have hhead := List.head?_dropWhile_not isBlank text
  rw [h] at hhead
  simpa using hhead

theorem dropWhile_blanks {blanks after : List Char} (hblanks : ∀ c ∈ blanks, isBlank c = true)
    (hafter : ∀ c ∈ after.head?, isBlank c = false) : (blanks ++ after).dropWhile isBlank = after := by
  rw [List.dropWhile_append_of_pos hblanks]
  cases after with
  | nil => rfl
  | cons c rest => rw [List.dropWhile_cons_of_neg (by simp [hafter c rfl])]

namespace Lexeme

def ClosesLine (after : List Char) : Prop := Lexer.LineDone after ∨ "//".toList <+: after ∨ "/*".toList <+: after

theorem ClosesLine.head {after : List Char} (h : ClosesLine after) : ∀ c ∈ after.head?, isBlank c = false := by
  intro c hc
  obtain ⟨rest, rfl⟩ := List.head?_eq_some_iff.mp hc
  rcases h with h | h | h
  · exact Lexer.isBlank_of_isLineBreak h
  · obtain ⟨rfl, -⟩ := List.cons_prefix_cons.mp h
    rfl
  · obtain ⟨rfl, -⟩ := List.cons_prefix_cons.mp h
    rfl

theorem closesLine_iff (text : List Char) : closesLine text = true ↔ ClosesLine (text.dropWhile isBlank) := by
  unfold closesLine
  split
  · next h => simp [h, ClosesLine, Lexer.LineDone]
  · next h => simp [h, ClosesLine]
  · next h => simp [h, ClosesLine]
  · next c rest hslash hstar h =>
    rw [h]
    refine (or_iff_left ?_).symm
    rintro (⟨tail, htail⟩ | ⟨tail, htail⟩)
    · exact hslash tail (List.cons.inj htail).1.symm (List.cons.inj htail).2.symm
    · exact hstar tail (List.cons.inj htail).1.symm (List.cons.inj htail).2.symm

end Lexeme

/-- A line ends a mata block if, blanks aside, it begins with `end` and the line is closed behind that. -/
theorem endsMata_iff (line : List Char) :
    EndsMata line ↔ ∃ rest, line.dropWhile isBlank = "end".toList ++ rest ∧ Lexeme.closesLine rest = true := by
  constructor
  · rintro ⟨indent, gap, after, rfl, hblanks, hcloses⟩
    obtain ⟨hindent, hgap⟩ := List.forall_mem_append.mp hblanks
    refine ⟨gap ++ after, ?_, ?_⟩
    · rw [List.append_assoc, List.append_assoc, dropWhile_blanks hindent (by simp; rfl)]
    · rw [Lexeme.closesLine_iff, dropWhile_blanks hgap (Lexeme.ClosesLine.head hcloses)]
      exact hcloses
  · rintro ⟨rest, hline, hcloses⟩
    refine ⟨line.takeWhile isBlank, rest.takeWhile isBlank, rest.dropWhile isBlank, ?_, fun c hc => ?_,
      (Lexeme.closesLine_iff rest).mp hcloses⟩
    · rw [List.append_assoc, List.takeWhile_append_dropWhile, List.append_assoc, ← hline,
        List.takeWhile_append_dropWhile]
    · rcases List.mem_append.mp hc with hc | hc <;> exact List.all_eq_true.mp List.all_takeWhile c hc

/-! ## Lexemes of lines -/

inductive LineCase (l : Lexer) : Prop where
  | ends (line : EndsMata l.rest) (kind : l.kind = .controlKeyword) (text : l.ahead.text = "end".toList)
  | done (line : ¬ EndsMata l.rest) (ends : l.EndsLine) (body : Lexer.LineDone l.body)
  | content (c : Char) (rest : List Char) (line : ¬ EndsMata l.rest) (body : l.body = c :: rest)
    (plain : isLineBreak c = false) (kind : l.kind = .mataContent) (text : l.ahead.text = c :: Lexeme.restOfLine rest)

theorem Lexer.lineCase {l : Lexer} (hmode : l.mode = .mataLine) : LineCase l := by
  have hbody : l.body = l.rest.dropWhile isBlank := l.body_eq_dropWhile (by rw [hmode]; rfl)
  have hends : EndsMata l.rest ↔ ∃ rest, l.body = "end".toList ++ rest ∧ Lexeme.closesLine rest = true :=
    hbody ▸ endsMata_iff l.rest
  have hlexeme : l.mode.lexeme l.fresh l.body = Lexeme.mataLine l.body := by rw [hmode]; rfl
  have hkind : l.kind = (Lexeme.mataLine l.body).kind := hlexeme ▸ l.kind_eq
  have htext : l.ahead.text = (Lexeme.mataLine l.body).text := hlexeme ▸ rfl
  by_cases hline : LineDone l.body
  · refine .done (fun he => ?_) ((l.endsLine_iff (by rw [hmode]; decide)).mpr hline) hline
    obtain ⟨rest, hrest, -⟩ := hends.mp he
    rw [hrest] at hline
    cases hline
  obtain ⟨c, rest, hcons⟩ : ∃ c rest, l.body = c :: rest :=
    List.exists_cons_of_ne_nil fun hnil => hline (by rw [hnil]; trivial)
  rw [hcons] at hline hkind htext
  have hc : isLineBreak c = false := Bool.eq_false_iff.mpr hline
  rw [Lexeme.mataLine] at hkind htext
  by_cases hend : (['e', 'n', 'd'].isPrefixOf (c :: rest) && Lexeme.closesLine ((c :: rest).drop 3)) = true
  · rw [if_pos hend] at hkind htext
    obtain ⟨hword, hcloses⟩ := Bool.and_eq_true_iff.mp hend
    obtain ⟨tail, htail⟩ := List.isPrefixOf_iff_prefix.mp hword
    rw [← htail] at hcloses
    exact .ends (hends.mpr ⟨tail, by rw [hcons, ← htail]; rfl, hcloses⟩) hkind htext
  · rw [if_neg hend, if_neg (Bool.eq_false_iff.mp hc)] at hkind htext
    refine .content c rest (fun he => hend ?_) hcons hc hkind htext
    obtain ⟨tail, htail, hcloses⟩ := hends.mp he
    rw [← hcons, htail]
    exact Bool.and_eq_true_iff.mpr ⟨List.isPrefixOf_iff_prefix.mpr ⟨tail, rfl⟩, hcloses⟩

/-! ## Lines of a block -/

/-- Whether a region is the content of a line: from its first character that is no blank up to its line break. -/
def CoversLine (text : List Char) (r : Tree × Span) : Prop :=
  ∃ before blanks c content after, before ++ blanks ++ c :: content ++ after = text ∧ BeginsLine before ∧
    (∀ d ∈ blanks, isBlank d = true) ∧ isBlank c = false ∧ OneLine (c :: content) ∧ Lexer.LineDone after ∧
    r = (.leaf .mataContent (c :: content), .ofText (byteSize (before ++ blanks)) (c :: content))

/-- Whether regions are those of lines in a mata block: line breaks, and between them the content of a line or none. -/
structure IsMataBody (text : List Char) (rs : List (Tree × Span)) : Prop where
  each : ∀ r ∈ rs, (∃ word, r.1 = .leaf .newline word) ∨ CoversLine text r
  apart : rs.IsChain fun a b => a.1.kind = .mataContent → b.1.kind = .newline

def NoMataEnd (text : List Char) (start stop : Nat) : Prop :=
  ∀ before line, before ++ line = text → BeginsLine before → start ≤ byteSize before → byteSize before < stop →
    ¬ EndsMata line

theorem NoMataEnd.trans {text : List Char} {a b c : Nat} (h : NoMataEnd text a b) (h' : NoMataEnd text b c) :
    NoMataEnd text a c := fun before line htext hbegins hle hlt => by
  by_cases hb : byteSize before < b
  · exact h before line htext hbegins hle hb
  · exact h' before line htext hbegins (Nat.not_lt.mp hb) hlt

namespace Lexer

variable {text : List Char} {l : Lexer}

/-- A place in the token ahead cuts it. -/
theorem Stands.cut_ahead (h : l.Stands text) {before line : List Char} (htext : before ++ line = text)
    (hle : l.offset ≤ byteSize before) (hlt : byteSize before < l.ahead.stop) :
    ∃ p x y, before = p ++ x ∧ l.ahead.fullText = x ++ y ∧ y ≠ [] ∧ line = y ++ l.after := by
  obtain ⟨p, hp, hoffset, -⟩ := h
  rw [hoffset] at hle
  obtain ⟨x, rfl, hrest⟩ := exists_between (hp.trans htext.symm) hle
  have hstop : l.ahead.stop = byteSize p + byteSize l.ahead.fullText := by
    rw [Token.fullText, byteSize_append, ← Nat.add_assoc, ← hoffset]
    rfl
  rw [byteSize_append, hstop] at hlt
  rw [← l.fullText_append_after] at hrest
  obtain ⟨y, hy, hline⟩ := exists_between hrest.symm (by omega)
  refine ⟨p, x, y, rfl, hy, fun hnil => ?_, hline⟩
  rw [hy, hnil, List.append_nil] at hlt
  omega

/-- No line that begins in a line break, or in the blanks before it, ends a mata block. -/
theorem noMataEnd_newline (h : l.Stands text) (hk : l.kind = .newline) : NoMataEnd text l.offset l.ahead.stop := by
  intro before line htext _ hle hlt hends
  obtain ⟨p, x, y, -, hfull, hy, rfl⟩ := h.cut_ahead htext hle hlt
  obtain ⟨hne, hbreaks⟩ := breaks_of_newline hk
  have hchars : ∀ c ∈ l.ahead.fullText, isBlank c = true ∨ isLineBreak c = true := fun c hc =>
    (List.mem_append.mp hc).imp isBlank_of_mem_leading (hbreaks c)
  -- the token ends with a line break, so not all that is left of it is blank
  have hbegins : BeginsLine y := by
    rw [← beginsLine_append (a := x) hy, ← hfull, Token.fullText, beginsLine_append hne]
    exact fun c hc => hbreaks c (List.mem_of_mem_getLast? hc)
  have hlast : y.dropWhile isBlank ≠ [] := fun hnil => by
    have hblank := List.dropWhile_eq_nil_iff.mp hnil _ (List.getLast_mem hy)
    rw [isBlank_of_isLineBreak (hbegins _ (List.getLast_mem_getLast? hy))] at hblank
    cases hblank
  obtain ⟨c, rest, hcons⟩ := List.exists_cons_of_ne_nil hlast
  obtain ⟨tail, hline, -⟩ := (endsMata_iff _).mp hends
  rw [List.dropWhile_append, if_neg (by simpa using hlast), hcons] at hline
  obtain rfl : c = 'e' := (List.cons.inj hline).1
  have hmem : 'e' ∈ l.ahead.fullText := by
    rw [hfull]
    exact List.mem_append_right _ ((List.dropWhile_suffix _).subset (hcons ▸ List.mem_cons_self))
  rcases hchars _ hmem with hc | hc <;> cases hc

/-- A line of content does not end a mata block, and no other line begins in it. -/
theorem noMataEnd_content (h : l.Stands text) (hline : ¬ EndsMata l.rest) (hcontent : OneLine l.ahead.text) :
    NoMataEnd text l.offset l.ahead.stop := by
  intro before line htext hbegins hle hlt hends
  obtain ⟨p, x, y, rfl, hfull, -, rfl⟩ := h.cut_ahead htext hle hlt
  have hplain : OneLine l.ahead.fullText := fun c hc => by
    rcases List.mem_append.mp hc with hc | hc
    · refine Bool.eq_false_iff.mpr fun hbreak => ?_
      have hblank := isBlank_of_mem_leading hc
      rw [isBlank_of_isLineBreak hbreak] at hblank
      cases hblank
    · exact hcontent c hc
  cases x with
  | nil =>
    rw [List.nil_append] at hfull
    rw [← hfull, fullText_append_after] at hends
    exact hline hends
  | cons c x =>
    have hlast := (beginsLine_append (List.cons_ne_nil c x)).mp hbegins _ (List.getLast_mem_getLast? (List.cons_ne_nil c x))
    rw [hplain _ (hfull ▸ List.mem_append_left _ (List.getLast_mem _))] at hlast
    cases hlast

end Lexer

/-! ## The run over the lines -/

structure Lexer.AtMataLine (text : List Char) (l : Lexer) : Prop where
  stands : l.Stands text
  line : l.mode = .mataLine ∧ l.StartsLine text ∨ l.mode = .mataLine ∧ LineDone l.rest ∨ l.mode = .mataHead ∧ l.EndsLine

theorem Lexer.AtMataLine.start {text : List Char} {l : Lexer} (h : l.AtMataLine text) (hline : ¬ l.EndsLine) :
    l.mode = .mataLine ∧ l.StartsLine text := by
  rcases h.line with h | ⟨hmode, hdone⟩ | ⟨-, hends⟩
  · exact h
  · exact absurd (endsLine_of_lineDone (by rw [hmode]; decide) hdone) hline
  · exact absurd hends hline

structure MataRun (text : List Char) (l : Lexer) (items : List Item) (m : Lexer) : Prop where
  reach : m.AtMataLine text
  body : IsMataBody text (Item.row l items)
  first : l.EndsLine → ∀ r ∈ (Item.row l items).head?, r.1.kind = .newline
  quiet : NoMataEnd text l.offset m.offset

namespace Lexer

variable {text : List Char} {l : Lexer}

theorem lineDone_of_restOfLine {rest after : List Char} (h : Lexeme.restOfLine rest ++ after = rest) : LineDone after := by
  have hafter : after = rest.dropWhile (!isLineBreak ·) :=
    List.append_cancel_left (h.trans List.takeWhile_append_dropWhile.symm)
  have hhead := List.head?_dropWhile_not (!isLineBreak ·) rest
  rw [← hafter] at hhead
  cases after with
  | nil => trivial
  | cons c after => exact show isLineBreak c = true by simpa using hhead

theorem lineDone_after {c : Char} {rest : List Char} (hbody : l.body = c :: rest)
    (htext : l.ahead.text = c :: Lexeme.restOfLine rest) : LineDone l.after := by
  have hafter := l.text_append_after
  rw [htext, hbody, List.cons_append] at hafter
  exact lineDone_of_restOfLine (List.cons.inj hafter).2

theorem coversLine (h : l.StartsLine text) (hmode : l.mode = .mataLine) {c : Char} {rest : List Char}
    (hbody : l.body = c :: rest) (hc : isLineBreak c = false) (htext : l.ahead.text = c :: Lexeme.restOfLine rest) :
    CoversLine text (.leaf .mataContent l.ahead.text, l.ahead.span) ∧ LineDone l.after := by
  obtain ⟨before, hbefore, hoffset, hbegins⟩ := h
  have hrest : l.rest.dropWhile isBlank = c :: rest := by rw [← hbody, l.body_eq_dropWhile (by rw [hmode]; rfl)]
  have hblank : isBlank c = false := isBlank_head_dropWhile hrest
  have hdone : LineDone l.after := lineDone_after hbody htext
  have hblanks : ∀ d ∈ l.leading, isBlank d = true := fun d hd => isBlank_of_mem_leading hd
  refine ⟨⟨before, l.leading, c, Lexeme.restOfLine rest, l.after, ?_, hbegins, hblanks, hblank,
    .cons hc (Lexeme.oneLine_restOfLine rest), hdone, ?_⟩, hdone⟩
  · rw [List.append_assoc, List.append_assoc, ← htext, l.text_append_after, l.leading_append_body, hbefore]
  · rw [← htext, byteSize_append, ← hoffset]
    rfl

end Lexer

theorem MataRun.step {text : List Char} {l : Lexer} (hl : l.AtMataLine text) (hends : ¬ MataEnds l) :
    (l.next .mataLine).AtMataLine text ∧ NoMataEnd text l.offset (l.next .mataLine).offset ∧
      (l.kind = .newline ∨ CoversLine text (.leaf l.kind l.ahead.text, l.ahead.span) ∧ ¬ l.EndsLine ∧
        (l.next .mataLine).EndsLine) := by
  have hnext := hl.stands.next .mataLine
  by_cases hk : l.kind = .newline
  · exact ⟨⟨hnext, .inl ⟨rfl, Lexer.startsLine_next hl.stands hk _⟩⟩, Lexer.noMataEnd_newline hl.stands hk, .inl hk⟩
  have hline : ¬ l.EndsLine := fun hline => hline.elim hk fun he => hends (.inl he)
  obtain ⟨hmode, hstart⟩ := hl.start hline
  cases l.lineCase hmode with
  | ends _ hkind => exact absurd (.inr hkind) hends
  | done _ h => exact absurd h hline
  | content c rest hno hbody hc hkind htext =>
    obtain ⟨hcovers, hdone⟩ := Lexer.coversLine hstart hmode hbody hc htext
    have hnextLine : (l.next .mataLine).EndsLine := Lexer.endsLine_of_lineDone nofun hdone
    have hcontent : OneLine l.ahead.text := htext ▸ .cons hc (Lexeme.oneLine_restOfLine rest)
    exact ⟨⟨hnext, .inr (.inl ⟨rfl, hdone⟩)⟩, Lexer.noMataEnd_content hl.stands hno hcontent,
      .inr ⟨hkind ▸ hcovers, hline, hnextLine⟩⟩

/-- Up to its end a mata block of several lines is read line by line. -/
theorem mataRun {text : List Char} {l n : Lexer} {items : List Item} (hl : l.AtMataLine text)
    (h : (many MataEnds (take .mataLine)).leads l items n) : MataRun text l items n := by
  -- where the lexer stands is known before each token, and that a token of content is followed by a line break
  induction h with
  | @done l => exact ⟨hl, ⟨nofun, .nil⟩, nofun, fun _ _ _ _ hle hlt => absurd hlt (Nat.not_lt.mpr hle)⟩
  | @more l m n is js hends first rest ih =>
    obtain ⟨hnext, hquiet, hcase⟩ := MataRun.step hl hends
    obtain ⟨hk, rfl, rfl⟩ := first
    have hrun := ih hnext
    have hrow : Item.row l ([l.item] ++ js) =
        (.leaf l.kind l.ahead.text, l.ahead.span) :: Item.row (l.next .mataLine) js := by
      rw [Item.row_append (.take hk _), Item.row_item]
      rfl
    refine ⟨hrun.reach, ⟨?_, ?_⟩, ?_, hquiet.trans hrun.quiet⟩
    all_goals rw [hrow]
    · refine List.forall_mem_cons.mpr ⟨?_, hrun.body.each⟩
      rcases hcase with hk | ⟨hcovers, -⟩
      · exact .inl ⟨l.ahead.text, by rw [hk]⟩
      · exact .inr hcovers
    · refine hrun.body.apart.cons fun r hr hcontent => ?_
      rcases hcase with hk | ⟨-, -, hline⟩
      · rw [show l.kind = _ from hcontent] at hk
        cases hk
      · exact hrun.first hline r hr
    · intro hline r hr
      rcases hcase with hk | ⟨-, hno, -⟩
      · obtain rfl : _ = r := Option.some.inj hr
        exact hk
      · exact absurd hline hno

/-! ## Where a block ends -/

structure MataEndAt (text head before line : List Char) : Prop where
  text : before ++ line = text
  begins : BeginsLine before
  behind : head <+: before
  ends : EndsMata line

def FirstMataEnd (text head before line : List Char) : Prop :=
  MataEndAt text head before line ∧ ∀ before' line', MataEndAt text head before' line' → before <+: before'

def Place.EndsWithLine (q : Place) (text before line : List Char) : Prop :=
  ∃ opening body comments, IsMataHead q.start opening ∧ IsMataBody text body ∧ (∀ r ∈ comments, Form.IsRemark r.1) ∧
    q.contents.map Place.region = opening ++ body ++
      (.leaf .endKeyword "end".toList, .ofText (byteSize (before ++ line.takeWhile isBlank)) "end".toList) :: comments

/-- Whether a mata block is its head and its lines up to the end of the text. Only blanks behind the last line break
or the head are left, as a leaf of their own. -/
def Place.EndsWithText (q root : Place) (text rest : List Char) : Prop :=
  (∃ opening body, IsMataHead q.start opening ∧ IsMataBody text body ∧
    q.contents.map Place.region = opening ++ body) ∧
  ∃ kept blanks, kept ++ blanks = text ∧ byteSize kept = q.stop ∧ (∀ c ∈ blanks, isBlank c = true) ∧
    (blanks ≠ [] → (BeginsLine kept ∨ rest = []) ∧
      ∃ w ∈ root.leaves, w.tree = .leaf .whitespace blanks ∧ w.start = q.stop)

theorem mataLines_cases {o n : Lexer} {js : List Item} (h : (many MataEnds (take .mataLine)).leads o js n) :
    js = [] ∧ n = o ∨ o.ahead.stop ≤ n.offset ∧ n.mode = .mataLine := by
  induction h with
  | done => exact .inl ⟨rfl, rfl⟩
  | @more l m n is js _ first rest ih =>
    have hle : m.offset ≤ n.offset := ((many MataEnds (take .mataLine)).account rest).offset_le
    obtain ⟨-, -, rfl⟩ := first
    rcases ih with ⟨-, rfl⟩ | ⟨-, hmode⟩
    · exact .inr ⟨hle, rfl⟩
    · exact .inr ⟨hle, hmode⟩

section
variable {text head rest : List Char} {o n : Lexer} {js : List Item} (hrun : MataRun text o js n)
  (hoffset : byteSize head = o.ahead.start)
include hrun hoffset

theorem offset_le_of_mataEndAt {before line : List Char} (hend : MataEndAt text head before line) :
    n.offset ≤ byteSize before := by
  obtain ⟨x, rfl⟩ := hend.behind
  have hle : o.offset ≤ o.ahead.start := Nat.le_add_right ..
  refine Nat.le_of_not_lt fun hlt => hrun.quiet _ line hend.text hend.begins ?_ hlt hend.ends
  rw [byteSize_append]
  omega

theorem not_mataEndAt_of_run (hclose : n.kind = .eof) (before line : List Char) : ¬ MataEndAt text head before line := by
  intro hend
  have hle := offset_le_of_mataEndAt hrun hoffset hend
  obtain ⟨p, hp, hn, -⟩ := hrun.reach.stands
  obtain ⟨x, -, hx⟩ := exists_between (hp.trans hend.text.symm) (hn ▸ hle)
  have hblank : line.dropWhile isBlank = [] := by
    refine List.dropWhile_eq_nil_iff.mpr fun c hc => Lexer.isBlank_of_mem_leading (l := n) ?_
    rw [← n.rest_eq_leading_iff.mpr hclose, hx]
    exact List.mem_append_right _ hc
  obtain ⟨tail, hline, -⟩ := (endsMata_iff line).mp hend.ends
  rw [hblank] at hline
  cases hline

/-- If a block is read up to an `end`, that is the first line that ends it. -/
theorem firstMataEnd_of_run (hhead : head ++ rest = text) (hline : o.EndsLine)
    (h : (many MataEnds (take .mataLine)).leads o js n) (hclose : n.kind = .controlKeyword) :
    ∃ before, FirstMataEnd text head before n.rest ∧ n.ahead.text = "end".toList ∧
      n.ahead.span = .ofText (byteSize (before ++ n.rest.takeWhile isBlank)) "end".toList := by
  have hopen : ¬ n.EndsLine := Reading.not_endsLine_of_kind (by decide) (by decide) n hclose
  obtain ⟨hmode, p, hp, hn, hbegins⟩ := hrun.reach.start hopen
  obtain ⟨hends, htext⟩ : EndsMata n.rest ∧ n.ahead.text = "end".toList := by
    cases n.lineCase hmode with
    | ends hends _ htext => exact ⟨hends, htext⟩
    | done _ h => exact absurd h hopen
    | content _ _ _ _ _ hkind =>
      rw [hclose] at hkind
      cases hkind
  have hbehind : head <+: p := by
    have hle : o.ahead.stop ≤ n.offset := ((mataLines_cases h).resolve_left fun h => hopen (h.2 ▸ hline)).1
    have hstart : o.ahead.start ≤ o.ahead.stop := Nat.le_add_right ..
    obtain ⟨x, rfl, -⟩ := exists_between (hhead.trans hp.symm) (by omega)
    exact List.prefix_append ..
  have hleading : n.leading = n.rest.takeWhile isBlank := by
    rw [Lexer.leading, hmode]
    rfl
  refine ⟨p, ⟨⟨hp, hbegins, hbehind, hends⟩, fun before line hend => ?_⟩, htext, ?_⟩
  · have hle := offset_le_of_mataEndAt hrun hoffset hend
    obtain ⟨x, rfl, -⟩ := exists_between (hp.trans hend.text.symm) (hn ▸ hle)
    exact List.prefix_append ..
  rw [← htext, ← hleading, byteSize_append, ← hn]
  rfl

end

theorem Reading.row_lines {k o n : Lexer} {is js cs : List Item} (opening : mataOpening.leads k is o)
    (content : (many MataEnds (take .mataLine)).leads o js n) (closer : n.kind = .controlKeyword) :
    Item.row k (is ++ js ++ .token n .endKeyword :: cs) = Item.row k is ++ Item.row o js ++
      (.leaf .endKeyword n.ahead.text, n.ahead.span) :: Item.row (n.next .statement) cs := by
  have hword : n.IsWord := by rw [Lexer.IsWord, closer]; decide
  have hopening := mataOpening.account opening
  have hcontent := (many MataEnds (take .mataLine)).account content
  rw [Item.row_append (hopening.append hcontent), Item.row_append hopening, ← List.singleton_append,
    Item.row_append (.word hword (by decide) .statement), Item.row_token n (by decide)]
  rfl

namespace Place.ReadsMata

variable {text : List Char} {q : Place} {b k o n m e : Lexer} {is js ts : List Item}

theorem mataRun_of_opening {bs : List Item} (h : q.ReadsMata text b k o bs m ts e) (opening : mataOpening.leads k is o)
    (line : o.EndsLine) (content : (many MataEnds (take .mataLine)).leads o js n) : MataRun text o js n :=
  mataRun ⟨((mataOpening.account opening).stands h.stands).1, .inr (.inr ⟨Reading.mode_of_mataOpening opening, line⟩)⟩
    content

/-- A block of several lines without its end goes on to the end of the text. -/
theorem endsWithText (h : q.ReadsMata text b k o
    [.enclosed .mataBlock (is ++ js ++ [.found ⟨.missingMataEnd, k.ahead.span⟩])] n ts e)
    (opening : mataOpening.leads k is o) (line : o.EndsLine) (content : (many MataEnds (take .mataLine)).leads o js n)
    (closer : n.kind = .eof) (hnode : q.stop = n.offset ∧ q.contents.map Place.region = Item.row k (is ++ js)) :
    q.EndsWithText (Parse.ofText text).root text o.body := by
  have hrun := h.mataRun_of_opening opening line content
  refine ⟨⟨_, _, h.start_eq ▸ (head_of_opening opening h.word).1, hrun.body,
    hnode.2.trans (Item.row_append (mataOpening.account opening))⟩, ?_⟩
  obtain ⟨kept, hkept, hoffset, -⟩ := hrun.reach.stands
  have hrest : n.rest = n.leading := n.rest_eq_leading_iff.mpr closer
  obtain ⟨-, rfl⟩ := Reading.stopsAtEnd_endOfLine closer h.tail
  rw [hnode.1]
  refine ⟨kept, e.leading, hrest ▸ hkept, hoffset.symm, fun c hc => Lexer.isBlank_of_mem_leading hc, fun hblank =>
    ⟨?_, h.last closer hblank⟩⟩
  rcases hrun.reach.line with ⟨-, before, hbefore, -, hbegins⟩ | ⟨-, hdone⟩ | ⟨hmode, -⟩
  · rw [List.append_cancel_right (hkept.trans hbefore.symm)]
    exact .inl hbegins
  · exact absurd (Lexer.leading_of_lineDone hdone) hblank
  · refine (mataLines_cases content).elim (fun h => .inr ?_) fun h => ?_
    · rw [← h.2]
      exact e.kind_eq_eof_iff.mp closer
    · rw [h.2] at hmode
      cases hmode

end Place.ReadsMata

namespace Parse

/-- A mata block of several lines ends at the first line that is an `end`, and holds what stands before it line by
line. Without such a line it holds all that is left of the text, and is given up. -/
theorem mata_lines_up_to_first_end (text : List Char) (hsize : byteSize text ≤ maxOffset) :
    let p := ofText text
    ∀ q ∈ p.root.nodes, q.kind = .mataBlock → ∃ head rest, q.OpensMata text head rest ∧ (Lexer.LineDone rest →
      (∃ before line, FirstMataEnd text head before line ∧ q.EndsWithLine text before line) ∨
        (∀ before line, ¬ MataEndAt text head before line) ∧ q.EndsWithText p.root text rest ∧
          p.GivesUp q "missing `end` for mata" ⟨q.start, q.start + 4⟩) := by
  intro p q hq hkind
  obtain ⟨b, k, o, bs, m, ts, e, h⟩ := readsMata hsize hq hkind
  obtain ⟨head, hopens, hoffset⟩ := h.opensMata
  refine ⟨head, o.body, hopens, fun hdone => ?_⟩
  have hline : o.EndsLine := (o.endsLine_iff (by rw [h.mode_eq]; decide)).mpr hdone
  have hblock := h.block
  cases hblock with
  | braces opening brace | openBraces opening brace =>
    exact absurd hline (Reading.not_endsLine_of_kind (by decide) (by decide) o brace)
  | inline opening brace line => exact absurd hline line
  | @lines n m is js cs opening line content closer comments =>
    have hrun := h.mataRun_of_opening opening line content
    obtain ⟨before, hfirst, htext, hspan⟩ := firstMataEnd_of_run hrun hoffset hopens.1 line content closer
    refine .inl ⟨before, n.rest, hfirst, Item.row k is, Item.row o js, Item.row (n.next .statement) cs,
      h.start_eq ▸ (head_of_opening opening h.word).1, hrun.body, fun r hr => ?_, ?_⟩
    · exact (Reading.yields_trailingComments (c := fun _ => True) trivial comments).mem _ (Item.mem_trees_of_row hr)
    · rw [h.of_node.2, Reading.row_lines opening content closer, htext, hspan]
  | @openLines n is js opening line content closer =>
    have hmem := (Place.mem_nodes_iff.mp hq).1
    refine .inr ⟨not_mataEndAt_of_run (h.mataRun_of_opening opening line content) hoffset closer, ?_, ?_⟩
    · exact h.endsWithText opening line content closer (h.of_givenUp hsize hmem).1
    · refine h.givesUp hsize hmem ?_
      rw [Item.findingsAll_append, Reading.findings_of_mataOpening opening, Reading.findings_of_mataLines content]
      rfl

theorem mata_lines_up_to_first_end_commented :
    let text := "mata\n  s = \"`x\n\n ending\n end // of it\nmata:\nx".toList
    let p := ofText text
    byteSize text ≤ maxOffset ∧
    ∀ q ∈ p.root.nodes, q.kind = .mataBlock → ∃ head rest, q.OpensMata text head rest ∧ (Lexer.LineDone rest →
      (∃ before line, FirstMataEnd text head before line ∧ q.EndsWithLine text before line) ∨
        (∀ before line, ¬ MataEndAt text head before line) ∧ q.EndsWithText p.root text rest ∧
          p.GivesUp q "missing `end` for mata" ⟨q.start, q.start + 4⟩) := by
  have hsize : byteSize "mata\n  s = \"`x\n\n ending\n end // of it\nmata:\nx".toList ≤ maxOffset := by decide
  exact ⟨hsize, mata_lines_up_to_first_end _ hsize⟩

end Parse

end Dofile
