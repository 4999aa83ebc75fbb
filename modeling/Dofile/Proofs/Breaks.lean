import Dofile.Proofs.Concat

/-!
# Other line endings

A line may also end with a carriage return, alone or with a line feed behind it. Whichever
it is, the text is parsed alike: a text with its line feeds respelled has the tree and the
findings of the text, with the leaves respelled and the places moved as far as the longer
spelling moves them.
-/

namespace Dofile

open Grammar (prefixApplies atProgramSubcommand)

inductive LineEnding where
  | carriageReturn
  | carriageReturnLineFeed

namespace LineEnding

def chars : LineEnding → List Char
  | carriageReturn => ['\r']
  | carriageReturnLineFeed => ['\r', '\n']

def respell (e : LineEnding) (text : List Char) : List Char :=
  text.flatMap fun c => if c = '\n' then e.chars else [c]

def charsBefore : Nat → List Char → List Char
  | _, [] => []
  | offset, c :: rest => if offset = 0 then [] else c :: charsBefore (offset - c.utf8Size) rest

/-- Where a place of a text lies once the line feeds are replaced. -/
def shift (e : LineEnding) (text : List Char) (offset : Nat) : Nat :=
  byteSize (e.respell (charsBefore offset text))

/-! ## Texts and places -/

section
variable (e : LineEnding)

@[simp] theorem respell_nil : e.respell [] = [] := rfl

theorem respell_append (a b : List Char) : e.respell (a ++ b) = e.respell a ++ e.respell b := List.flatMap_append

theorem respell_lineFeed (rest : List Char) : e.respell ('\n' :: rest) = e.chars ++ e.respell rest := rfl

theorem respell_cons {c : Char} (hc : c ≠ '\n') (rest : List Char) : e.respell (c :: rest) = c :: e.respell rest := by
  simp [respell, hc]

theorem respell_of_not_mem {text : List Char} (h : '\n' ∉ text) : e.respell text = text := by
  induction text with
  | nil => rfl
  | cons c rest ih =>
    rw [List.mem_cons, not_or] at h
    rw [respell_cons e (Ne.symm h.1), ih h.2]

theorem respell_eq_nil_iff (text : List Char) : e.respell text = [] ↔ text = [] := by
  cases text with
  | nil => simp
  | cons c rest =>
    by_cases hc : c = '\n'
    · subst hc
      cases e <;> simp [respell_lineFeed, chars]
    · simp [respell_cons e hc]

theorem sameLine_respell (text : List Char) : SameLine text (e.respell text) := by
  induction text with
  | nil => exact .ended
  | cons c rest ih =>
    by_cases hc : c = '\n'
    · subst hc
      cases e <;> exact .broken rfl rfl _ _
    · rw [respell_cons e hc]
      cases hb : isLineBreak c with
      | true => exact .broken hb hb _ _
      | false => exact .more hb ih

theorem length_le_respell (text : List Char) : text.length ≤ (e.respell text).length := by
  induction text with
  | nil => exact Nat.le_refl 0
  | cons c rest ih =>
    by_cases hc : c = '\n'
    · subst hc
      cases e <;> simp [respell_lineFeed, chars] <;> omega
    · simpa [respell_cons e hc] using ih

theorem byteSize_le_respell (text : List Char) : byteSize text ≤ byteSize (e.respell text) := by
  have hpos := ('\r').utf8Size_pos
  have hsize : Char.utf8Size '\n' = 1 := by decide
  induction text with
  | nil => exact Nat.le_refl 0
  | cons c rest ih =>
    by_cases hc : c = '\n'
    · subst hc
      cases e <;> simp [respell_lineFeed, chars] <;> omega
    · simpa [respell_cons e hc] using ih

theorem freshAfter_respell (fresh : Bool) (text : List Char) :
    freshAfter fresh (e.respell text) = freshAfter fresh text := by
  induction text generalizing fresh with
  | nil => rfl
  | cons c rest ih =>
    by_cases hc : c = '\n'
    · subst hc
      rw [respell_lineFeed, freshAfter_append, ih]
      cases e <;> simp [freshAfter, chars, isLineBreak]
    · rw [respell_cons e hc]
      exact ih _

theorem charsBefore_zero (text : List Char) : charsBefore 0 text = [] := by cases text <;> simp [charsBefore]

theorem charsBefore_byteSize (before after : List Char) : charsBefore (byteSize before) (before ++ after) = before := by
  induction before with
  | nil => exact charsBefore_zero after
  | cons c before ih =>
    have hpos := c.utf8Size_pos
    have hne : c.utf8Size + byteSize before ≠ 0 := by omega
    rw [List.cons_append, byteSize_cons, charsBefore, if_neg hne, Nat.add_sub_cancel_left, ih]

theorem charsBefore_isPrefix {a b : Nat} (h : a ≤ b) (text : List Char) : charsBefore a text <+: charsBefore b text := by
  induction text generalizing a b with
  | nil => exact List.nil_prefix
  | cons c rest ih =>
    by_cases ha : a = 0
    · rw [ha, charsBefore_zero]
      exact List.nil_prefix
    · rw [charsBefore, charsBefore, if_neg ha, if_neg (by omega)]
      exact List.cons_prefix_cons.mpr ⟨rfl, ih (by omega)⟩

theorem shift_le (text : List Char) {a b : Nat} (h : a ≤ b) : e.shift text a ≤ e.shift text b := by
  obtain ⟨more, hmore⟩ := charsBefore_isPrefix h text
  rw [shift, shift, ← hmore, respell_append, byteSize_append]
  omega

theorem suffix_respell (text : List Char) : ['*', '/'] <:+ e.respell text ↔ ['*', '/'] <:+ text := by
  have hslash (text : List Char) : ['/'] = e.respell text ↔ ['/'] = text := by
    cases text with
    | nil => simp
    | cons c rest =>
      by_cases hc : c = '\n'
      · subst hc
        cases e <;> simp [respell_lineFeed, chars]
      · rw [respell_cons e hc, List.cons.injEq, List.cons.injEq, eq_comm (b := e.respell rest), respell_eq_nil_iff,
          eq_comm (a := rest)]
  induction text with
  | nil => simp
  | cons c rest ih =>
    by_cases hc : c = '\n'
    · subst hc
      cases e <;> simp [respell_lineFeed, chars, List.suffix_cons_iff, ih]
    · simp only [respell_cons e hc, List.suffix_cons_iff, List.cons.injEq, hslash, ih]

theorem shift_byteSize (before after : List Char) :
    e.shift (before ++ after) (byteSize before) = byteSize (e.respell before) := by
  rw [shift, charsBefore_byteSize]

end

end LineEnding

/-! ## Tokens -/

namespace Lexeme

open LineEnding

variable (e : LineEnding)

theorem blockCommentTail_respell (text : List Char) :
    blockCommentTail (e.respell text) = e.respell (blockCommentTail text) := by
  induction text with
  | nil => rfl
  | cons c rest ih =>
    by_cases hend : ['*', '/'] <+: c :: rest
    · obtain ⟨u, heq⟩ := hend
      rw [← heq]
      rfl
    rw [blockCommentTail_cons hend]
    by_cases hc : c = '\n'
    · subst hc
      rw [respell_lineFeed, respell_lineFeed, ← ih]
      cases e <;> simp [chars, blockCommentTail]
    · have hend' : ¬ ['*', '/'] <+: c :: e.respell rest := by
        have hslash := (e.sameLine_respell rest).head?_beq (c := '/') rfl
        intro h
        obtain ⟨hstar, u, hu⟩ := List.cons_prefix_cons.mp h
        rw [← hu] at hslash
        obtain ⟨d, v, hrest⟩ : ∃ d v, rest = d :: v := by
          cases rest with
          | nil => simp at hslash
          | cons d v => exact ⟨d, v, rfl⟩
        simp [hrest] at hslash
        exact hend (by simp [← hstar, hrest, hslash])
      rw [respell_cons e hc, respell_cons e hc, blockCommentTail_cons hend', ih]

theorem braceContent_respell (depth : Nat) (text : List Char) :
    braceContent depth (e.respell text) = e.respell (braceContent depth text) := by
  induction text generalizing depth with
  | nil => rfl
  | cons c rest ih =>
    by_cases hc : c = '}'
    · subst hc
      cases depth with
      | zero => rfl
      | succ depth => exact congrArg ('}' :: ·) (ih depth)
    rw [braceContent_cons hc]
    by_cases hn : c = '\n'
    · subst hn
      rw [respell_lineFeed, respell_lineFeed, ← ih]
      cases e <;> simp [chars, braceContent]
    · rw [respell_cons e hn, respell_cons e hn, braceContent_cons hc, ih]

theorem mataBrace_respell (text : List Char) :
    mataBrace (e.respell text) = ⟨(mataBrace text).kind, e.respell (mataBrace text).text⟩ := by
  cases text with
  | nil => rfl
  | cons c rest =>
    by_cases hc : c = '}'
    · subst hc
      rfl
    have hcontent := braceContent_respell e 0 (c :: rest)
    obtain ⟨d, u, hu⟩ := List.exists_cons_of_ne_nil (mt (e.respell_eq_nil_iff (c :: rest)).mp (List.cons_ne_nil c rest))
    have hd : d ≠ '}' := by
      intro hd
      have hsame := (e.sameLine_respell (c :: rest)).head?_beq (c := '}') rfl
      rw [hu] at hsame
      simp [hd, hc] at hsame
    rw [mataBrace_cons hc]
    rw [hu] at hcontent ⊢
    rw [mataBrace_cons hd, hcontent]

theorem lineBreak_respell (rest : List Char) :
    ∃ b more, isLineBreak b = true ∧ e.respell ('\n' :: rest) = b :: more ∧
      lineBreak b more = ⟨.newline, e.respell ['\n']⟩ := by
  cases e with
  | carriageReturnLineFeed => exact ⟨'\r', _, rfl, rfl, rfl⟩
  | carriageReturn =>
    refine ⟨'\r', carriageReturn.respell rest, rfl, rfl, ?_⟩
    have hhead : (carriageReturn.respell rest).head? ≠ some '\n' := by
      cases rest with
      | nil => simp
      | cons c rest => by_cases hc : c = '\n' <;> simp [respell, hc, chars]
    rw [lineBreak, beq_eq_false_iff_ne.mpr hhead]
    rfl

/-- The two stars of a comment are two. -/
theorem isTerminatedBlockComment_cons (text : List Char) :
    isTerminatedBlockComment ('/' :: '*' :: text) = true ↔ ['*', '/'] <:+ text := by
  simp only [isTerminatedBlockComment, Bool.and_eq_true, decide_eq_true_eq, List.isSuffixOf_iff_suffix,
    List.suffix_cons_iff]
  constructor
  · intro hsuffix
    obtain ⟨hsize, h | h | h⟩ := hsuffix
    · cases h
    · cases h
      exact absurd hsize (by decide)
    · exact h
  · intro h
    refine ⟨?_, .inr (.inr h)⟩
    obtain ⟨u, rfl⟩ := h
    have hend : byteSize ['*', '/'] = 2 := by decide
    have hopen : Char.utf8Size '/' = 1 ∧ Char.utf8Size '*' = 1 := by decide
    simp only [byteSize_cons, byteSize_append, hend, hopen]
    omega

end Lexeme

/-- The token at the beginning of a respelled text is that of the text, respelled. -/
theorem Mode.lexeme_respell (e : LineEnding) (mode : Mode) (fresh : Bool) {text : List Char} (hr : '\r' ∉ text) :
    mode.lexeme fresh (e.respell text) =
      ⟨(mode.lexeme fresh text).kind, e.respell (mode.lexeme fresh text).text⟩ := by
  by_cases hm : mode = .mataBrace
  · subst hm
    exact Lexeme.mataBrace_respell e text
  cases text with
  | nil => rw [LineEnding.respell_nil, lexeme_nil]; rfl
  | cons c rest =>
    by_cases hc : c = '\n'
    · subst hc
      obtain ⟨b, more, hb, hrespell, hbreak⟩ := Lexeme.lineBreak_respell e rest
      rw [hrespell, lexeme_of_lineBreak hm fresh hb, hbreak, lexeme_of_lineBreak hm fresh rfl]
      rfl
    have hb : isLineBreak c = false := by
      rw [List.mem_cons, not_or] at hr
      simpa [isLineBreak, hc] using Ne.symm hr.1
    rw [e.respell_cons hc]
    by_cases hk : (mode.lexeme fresh (c :: rest)).kind = .blockComment
    · obtain ⟨rfl, tail, heq⟩ := lexeme_blockComment_cases hk
      cases heq
      rw [e.respell_cons (by decide)]
      simp only [lexeme, Lexeme.statement, Lexeme.blockCommentTail_respell]
      rw [e.respell_cons (by decide), e.respell_cons (by decide)]
    · have hone := oneLine_lexeme hm fresh hb rest hk
      rw [lexeme_sameLine hm hb (e.sameLine_respell rest) hk, e.respell_of_not_mem fun h => ?_]
      exact absurd (hone _ h) (by decide)

/-! ## Lexers -/

namespace Lexer

def respell (e : LineEnding) (text : List Char) (l : Lexer) : Lexer :=
  { l with offset := e.shift text l.offset, rest := e.respell l.rest }

section
variable {text : List Char} (hr : '\r' ∉ text) {l : Lexer} (h : l.Stands text) (e : LineEnding)

theorem leading_respell : (l.respell e text).leading = l.leading := by
  unfold leading
  rw [show (l.respell e text).rest = e.respell l.rest from rfl, (e.sameLine_respell l.rest).takeWhile rfl rfl]
  rfl

theorem respell_leading : e.respell l.leading = l.leading :=
  e.respell_of_not_mem fun hn => absurd (isBlank_of_mem_leading hn) (by decide)

theorem body_respell : (l.respell e text).body = e.respell l.body := by
  rw [body, leading_respell, show (l.respell e text).rest = e.respell l.rest from rfl]
  conv => lhs; rw [← l.leading_append_body, e.respell_append, respell_leading]
  exact List.drop_left

include h in
/-- What a lexer goes on with moves what comes behind it as far as its own spelling does. -/
theorem shift_offset {a : List Char} (ha : a <+: l.rest) :
    e.shift text (l.offset + byteSize a) = e.shift text l.offset + byteSize (e.respell a) := by
  obtain ⟨before, rfl, hoffset, -⟩ := h
  obtain ⟨after, hrest⟩ := ha
  have hplace := e.shift_byteSize (before ++ a) after
  rw [List.append_assoc, hrest, byteSize_append, e.respell_append, byteSize_append] at hplace
  rw [hoffset, hplace, e.shift_byteSize]

include h in
theorem start_respell : (l.respell e text).ahead.start = e.shift text l.ahead.start := by
  have hstart := shift_offset h e l.leading_isPrefix
  rw [respell_leading] at hstart
  have hleading : byteSize (l.respell e text).leading = byteSize l.leading := congrArg byteSize (leading_respell e)
  exact (congrArg (e.shift text l.offset + ·) hleading).trans hstart.symm

include hr h

theorem ahead_respell :
    (l.respell e text).ahead = ⟨e.shift text l.offset, l.leading, l.kind, e.respell l.ahead.text⟩ := by
  have hbody : '\r' ∉ l.body := by
    obtain ⟨before, rfl, -, -⟩ := h
    rw [← l.leading_append_body] at hr
    exact fun hm => hr (by simp [hm])
  rw [ahead_eq, leading_respell, body_respell]
  rw [show (l.respell e text).mode = l.mode from rfl, show (l.respell e text).fresh = l.fresh from rfl,
    Mode.lexeme_respell e l.mode l.fresh hbody]
  rfl

theorem fullText_respell : (l.respell e text).ahead.fullText = e.respell l.ahead.fullText := by
  rw [ahead_respell hr h, Token.fullText, Token.fullText, e.respell_append, show l.ahead.leading = l.leading from rfl,
    respell_leading]

theorem after_respell : (l.respell e text).after = e.respell l.after := by
  rw [after, fullText_respell hr h, show (l.respell e text).rest = e.respell l.rest from rfl]
  conv => lhs; rw [← l.fullText_append_after, e.respell_append]
  exact List.drop_left

theorem stop_respell : (l.respell e text).ahead.stop = e.shift text l.ahead.stop := by
  have hfull : l.ahead.fullText <+: l.rest := ⟨_, l.fullText_append_after⟩
  have hstop (l : Lexer) : l.ahead.stop = l.offset + byteSize l.ahead.fullText := by
    rw [Token.stop, Token.start, Token.fullText, byteSize_append, Nat.add_assoc]
    rfl
  rw [hstop, hstop, shift_offset h e hfull, fullText_respell hr h]
  rfl

theorem next_respell (mode : Mode) : (l.next mode).respell e text = (l.respell e text).next mode := by
  rw [next, next, stop_respell hr h, after_respell hr h, fullText_respell hr h, e.freshAfter_respell]
  rfl

/-- Words stand on one line, and so their texts are as they were. -/
theorem text_respell (hw : l.IsWord) : (l.respell e text).ahead.text = l.ahead.text := by
  rw [ahead_respell hr h]
  exact e.respell_of_not_mem fun hn => absurd (oneLine_text hw.not_acrossLines _ hn) (by decide)

end

end Lexer

def Never {α : Type} (_ : α) : Prop := False

theorem Never.elim {α : Type} {a : α} {p : Prop} (h : Never a) : p := False.elim h

/-- To the text with its line feeds replaced. No token is torn, and no end comes too early. -/
def Transport.respell (e : LineEnding) (text : List Char) (hr : '\r' ∉ text) : Transport where
  map := Lexer.respell e text
  shift := e.shift text
  Near := Lexer.Stands text
  Torn := Never
  Spent := Never
  Bad := Never
  shift_le := e.shift_le text
  near_relex h _ := h
  map_relex _ _ := rfl
  kind_map h := (congrArg Token.kind (Lexer.ahead_respell hr h e)).trans rfl
  start_map h := Lexer.start_respell h e
  stop_map h _ := Lexer.stop_respell hr h e
  isTerminated_map {l} h _ hk := by
    obtain ⟨-, tail, -, htext⟩ := Lexer.text_of_blockComment hk
    rw [Lexer.ahead_respell hr h, htext, e.respell_cons (by decide), e.respell_cons (by decide), Bool.eq_iff_iff,
      Lexeme.isTerminatedBlockComment_cons, Lexeme.isTerminatedBlockComment_cons, e.suffix_respell]
  text_map h hw := Lexer.text_respell hr h e hw
  prefixApplies_map h _ := by
    rw [Lexer.after_respell hr h]
    exact Grammar.prefixApplies_sameLine (e.sameLine_respell _)
  atProgramSubcommand_map h _ := by
    rw [Lexer.after_respell hr h]
    exact Grammar.atProgramSubcommand_sameLine (e.sameLine_respell _)
  map_next h _ _ mode := Lexer.next_respell hr h e mode
  near_next h _ _ _ mode := h.next mode
  near_or_spent h _ mode := .inl (h.next mode)
  kind_of_spent h := h.elim
  torn_cases h := h.elim
  bad_of_torn h := h.elim
  bad_of_spent h := h.elim

/-! ## Parses -/

namespace Parse

open Reading

variable {text : List Char} {items : List Item} {l : Lexer}

theorem lines_respell (e : LineEnding) (hr : '\r' ∉ text) (h : (lines text.length).leads (.ofText text) items l) :
    (lines (e.respell text).length).leads (.ofText (e.respell text))
      ((Transport.respell e text hr).mapAll items) (l.respell e text) := by
  have hcarried := carried_lines (K := Transport.respell e text hr) (fun _ => id) (fun _ _ => id)
    (Lexer.stands_ofText text) (.inl rfl) (lines_le (e.length_le_respell text) h)
  have hstart : (Lexer.ofText text).respell e text = .ofText (e.respell text) := by
    have hplace := e.shift_byteSize [] text
    rw [List.nil_append] at hplace
    simp only [Lexer.respell, Lexer.ofText, Lexer.mk.injEq, and_true]
    exact hplace
  have hlines := hcarried.1
  rwa [show (Transport.respell e text hr).map (.ofText text) = _ from hstart] at hlines

/-- A text with other line endings has the tree of the text, with the leaves respelled, and the
same diagnostics at the places that theirs have come to. -/
theorem ofText_respell (e : LineEnding) (text : List Char) (hr : '\r' ∉ text)
    (hsize : byteSize (e.respell text) ≤ maxOffset) :
    (ofText (e.respell text)).tree = (ofText text).tree.mapText e.respell ∧
      (ofText (e.respell text)).diagnostics =
        (ofText text).diagnostics.map fun d => { d with span := d.span.map (e.shift text) } := by
  obtain ⟨items, l, h⟩ := exists_lines text
  have hstands := (account_of_lines h).stands (Lexer.stands_ofText text)
  rw [ofText_eq h (Nat.le_trans (e.byteSize_le_respell text) hsize), ofText_eq (lines_respell e hr h) hsize]
  have hitems : fileItems ((Transport.respell e text hr).mapAll items) (l.respell e text) =
      (Transport.respell e text hr).mapAll (fileItems items l) := by
    have hkind : (l.respell e text).kind = l.kind := (Transport.respell e text hr).kind_map hstands.1
    rw [fileItems, fileItems, Transport.mapAll_append, Lexer.item, hkind]
    rfl
  have hrespells : Item.Respells e.respell (Transport.respell e text hr).map (Item.takenAll (fileItems items l)) := by
    intro t ht
    have ht : t.1.Stands text := by
      rw [fileItems, Item.takenAll_append, List.mem_append] at ht
      rcases ht with ht | ht
      · exact (hstands.2 t ht).1
      · simp only [Item.takenAll, Item.taken, Lexer.item, List.append_nil, List.mem_singleton] at ht
        rw [ht]
        exact hstands.1
    have hahead : ((Transport.respell e text hr).map t.1).ahead = _ := Lexer.ahead_respell hr ht e
    rw [hahead]
    exact ⟨(Lexer.respell_leading e).symm, rfl⟩
  refine ⟨?_, ?_⟩
  · rw [hitems]
    exact congrArg (Tree.node .sourceFile) (Item.forest_mapAll e.respell_eq_nil_iff hrespells)
  · have hfindings : Item.findingsAll ((Transport.respell e text hr).mapAll items) =
        (Item.findingsAll items).map (Finding.map (e.shift text)) := Item.findingsAll_mapAll items
    simp [diagnostics, hfindings, Finding.diagnostic, Finding.map, Function.comp_def]

theorem ofText_respell_unfinished :
    let text := "mata \x7b\n  x = \"a\n\x7d\ndisplay `b /* c\nend\n /* d\n".toList
    let e := LineEnding.carriageReturnLineFeed
    '\r' ∉ text ∧ byteSize (e.respell text) ≤ maxOffset ∧
      (ofText (e.respell text)).tree = (ofText text).tree.mapText e.respell ∧
      (ofText (e.respell text)).diagnostics =
        (ofText text).diagnostics.map fun d => { d with span := d.span.map (e.shift text) } := by
  have hr : '\r' ∉ "mata \x7b\n  x = \"a\n\x7d\ndisplay `b /* c\nend\n /* d\n".toList := by decide
  have hsize : byteSize (LineEnding.carriageReturnLineFeed.respell
      "mata \x7b\n  x = \"a\n\x7d\ndisplay `b /* c\nend\n /* d\n".toList) ≤ maxOffset := by decide
  exact ⟨hr, hsize, ofText_respell _ _ hr hsize⟩

end Parse

end Dofile
