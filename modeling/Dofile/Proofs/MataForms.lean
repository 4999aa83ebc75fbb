import Dofile.Proofs.MataBraces
import Dofile.Proofs.MataLines

/-!
# Mata blocks of one line, and the forms of all

What follows the head of a mata block on its line is the block, unless it is a brace. So three forms can be told
apart by the leaves of a block, but for a head at the end of a text, which is read as the first line of several and
looks like a block of one line.
-/

namespace Dofile

open Reading (mataOpening endOfLine MataEnds many take)

/-! ## Lines of a text -/

theorem exists_line (text : List Char) : ∃ before line, before ++ line = text ∧ BeginsLine before ∧ OneLine line := by
  induction text using List.reverseRecOn with
  | nil => exact ⟨[], [], rfl, nofun, oneLine_nil⟩
  | append_singleton text c ih =>
    cases hc : isLineBreak c with
    | true => exact ⟨text ++ [c], [], List.append_nil _, fun d hd => by simp at hd; rwa [← hd], oneLine_nil⟩
    | false =>
      obtain ⟨before, line, rfl, hbegins, hline⟩ := ih
      exact ⟨before, line ++ [c], (List.append_assoc ..).symm, hbegins, hline.append (.cons hc oneLine_nil)⟩

/-- No line begins within another. -/
theorem le_of_beginsLine {a b before line after : List Char} (h : a ++ b = before ++ line ++ after) (ha : BeginsLine a)
    (hline : OneLine line) (hle : byteSize a ≤ byteSize (before ++ line)) : byteSize a ≤ byteSize before := by
  refine Nat.le_of_not_lt fun hlt => ?_
  -- otherwise `a` ends with a character of the line, which is no line break
  rw [List.append_assoc] at h
  obtain ⟨x, rfl, hx⟩ := exists_between h.symm (Nat.le_of_lt hlt)
  simp only [byteSize_append] at hlt hle
  obtain ⟨y, hy, -⟩ := exists_between hx.symm (by omega)
  have hne : x ≠ [] := fun hnil => by
    rw [hnil] at hlt
    exact absurd hlt (by simp)
  have hlast := (beginsLine_append hne).mp ha _ (List.getLast_mem_getLast? hne)
  rw [hline _ (hy ▸ List.mem_append_left _ (List.getLast_mem hne))] at hlast
  cases hlast

/-! ## The end of a line -/

/-- Where a line ends nothing is found, and what is read there is its line break. -/
theorem endOfLine_of_endsLine {l m : Lexer} {items : List Item} (hl : l.EndsLine) (h : endOfLine.leads l items m) :
    Item.findingsAll items = [] ∧ (m.kind = .eof ∨ l.ahead.stop ≤ m.offset ∧ l.kind = .newline) := by
  obtain ⟨_, k, js, ⟨cs, c, rs, hcomments, hremnant, rfl⟩, -, hbreak, rfl⟩ := Reading.endOfLine_cases h
  obtain ⟨rfl, rfl⟩ : cs = [] ∧ c = l := by
    cases hcomments with
    | done => exact ⟨rfl, rfl⟩
    | more hcomment =>
      have hcomment := Reading.isComment_of_atTrailingComment (Classical.not_not.mp hcomment)
      exact absurd hl (Reading.not_endsLine_of_isComment hcomment)
  obtain ⟨rfl, rfl⟩ : rs = [] ∧ k = c := hremnant.elim (fun h => h.2) fun h => absurd hl h.1
  rcases hbreak with ⟨hk, -, rfl, rfl⟩ | ⟨hk, rfl, rfl⟩
  · exact ⟨rfl, .inr ⟨Nat.le_refl _, hk⟩⟩
  · exact ⟨rfl, .inl (hl.resolve_left hk)⟩

/-! ## Blocks of one line -/

/-- Whether a mata block is its head and, as one leaf, what is left of the line, and nothing is found on that line. -/
def Place.TakesLine (q : Place) (p : Parse) (head rest : List Char) : Prop :=
  ∃ opening content after, IsMataHead q.start opening ∧ content ++ after = rest ∧ OneLine content ∧ Lexer.LineDone after ∧
    q.contents.map Place.region = opening ++ [(.leaf .mataContent content, .ofText (byteSize head) content)] ∧
    q.stop = byteSize (head ++ content) ∧
    ∃ before line, before ++ line = head ++ content ∧ BeginsLine before ∧ OneLine line ∧
      ∀ d ∈ p.diagnostics, d.span.stop ≤ byteSize before ∨ byteSize (before ++ line) < d.span.start

def Place.StopsAtColon (q : Place) (head : List Char) : Prop :=
  ∃ opening, IsMataHead q.start opening ∧ q.stop = byteSize (head ++ [':']) ∧
    q.contents.map Place.region = opening ++ [(.leaf .colon [':'], .ofText (byteSize head) [':'])]

namespace Place.ReadsMata

variable {text : List Char} {q : Place} {b k o e : Lexer} {is ts : List Item}

theorem of_inline (h : q.ReadsMata text b k o [.node .mataBlock (is ++ [o.item])] (o.next .statement) ts e)
    (opening : mataOpening.leads k is o) : q.stop = o.ahead.stop ∧
      q.contents.map Place.region = Item.row k is ++ [(.leaf o.kind o.ahead.text, o.ahead.span)] := by
  obtain ⟨hstop, hcontents⟩ := h.of_node
  exact ⟨hstop, by rw [hcontents, Item.row_append (mataOpening.account opening), Item.row_item]⟩

/-- Nothing is found on the line of a block of one line. -/
theorem silent_of_inline (h : q.ReadsMata text b k o [.node .mataBlock (is ++ [o.item])] (o.next .statement) ts e)
    (opening : mataOpening.leads k is o) (hdone : Lexer.LineDone o.after) {before line : List Char} (after : List Char)
    (htext : before ++ line ++ after = text) (hline : OneLine line)
    (hstop : byteSize (before ++ line) = o.ahead.stop) : ∀ d ∈ (Parse.ofText text).diagnostics,
      d.span.stop ≤ byteSize before ∨ byteSize (before ++ line) < d.span.start := by
  have hends : (o.next .statement).EndsLine := Lexer.endsLine_of_lineDone nofun hdone
  obtain ⟨hsilent, hbehind⟩ := endOfLine_of_endsLine hends h.tail
  obtain ⟨fs, gs, hfound, hothers⟩ := h.found
  have hnone : Item.findingsAll [.node .mataBlock (is ++ [o.item])] = [] := by
    simp [Item.findingsAll, Item.findings, Item.findingsAll_append, Lexer.item, Reading.findings_of_mataOpening opening]
  intro d hd
  obtain ⟨f, hf, rfl⟩ := List.mem_map.mp hd
  rw [hfound, hnone, hsilent, List.append_nil, List.append_nil] at hf
  rcases hothers f hf with hle | ⟨he, hle⟩
  · -- a line begins at `b`, and so not behind the line of the block
    obtain ⟨p, hp, hoffset, hpbegins⟩ := h.start
    have hstart : b.offset ≤ o.ahead.stop := by
      have hopening := (mataOpening.account opening).offset_le
      have hstart := h.start_le
      have hahead : o.offset ≤ o.ahead.stop := Nat.le_trans (Nat.le_add_right ..) (Nat.le_add_right ..)
      omega
    have hbefore := le_of_beginsLine (hp.trans htext.symm) hpbegins hline (by omega)
    exact .inl (Nat.le_trans hle (hoffset ▸ hbefore))
  · obtain ⟨hstep, hnewline⟩ := hbehind.resolve_left he
    have hlt := Lexer.start_lt_stop (l := o.next .statement) (by rw [hnewline]; decide)
    have hahead : o.ahead.stop ≤ (o.next .statement).ahead.start := Nat.le_add_right ..
    exact .inr (show byteSize (before ++ line) < f.span.start by omega)

section
variable (h : q.ReadsMata text b k o [.node .mataBlock (is ++ [o.item])] (o.next .statement) ts e)
  (opening : mataOpening.leads k is o) {head : List Char} (hoffset : byteSize head = o.ahead.start)
include h opening hoffset

theorem region_of_inline : IsMataHead q.start (Item.row k is) ∧ q.stop = byteSize (head ++ o.ahead.text) ∧
    q.contents.map Place.region = Item.row k is ++ [(.leaf o.kind o.ahead.text, .ofText (byteSize head) o.ahead.text)] := by
  obtain ⟨hstop, hcontents⟩ := h.of_inline opening
  refine ⟨h.start_eq ▸ (head_of_opening opening h.word).1, ?_, ?_⟩
  · rw [hstop, byteSize_append, hoffset]
    rfl
  · rw [hcontents, hoffset]
    rfl

theorem stopsAtColon (hkind : o.kind = .colon) (htext : o.ahead.text = [':']) : q.StopsAtColon head := by
  obtain ⟨hhead, hstop, hcontents⟩ := h.region_of_inline opening hoffset
  rw [htext] at hstop
  rw [hkind, htext] at hcontents
  exact ⟨_, hhead, hstop, hcontents⟩

theorem takesLine (hopens : q.OpensMata text head o.body) {c : Char} {rest : List Char} (hbody : o.body = c :: rest)
    (hc : isLineBreak c = false) (hkind : o.kind = .mataContent) (htext : o.ahead.text = c :: Lexeme.restOfLine rest) :
    q.TakesLine (Parse.ofText text) head o.body := by
  obtain ⟨hhead, hstop, hcontents⟩ := h.region_of_inline opening hoffset
  rw [hkind] at hcontents
  have hone : OneLine o.ahead.text := htext ▸ .cons hc (Lexeme.oneLine_restOfLine rest)
  have hdone : Lexer.LineDone o.after := Lexer.lineDone_after hbody htext
  obtain ⟨before, line, hline, hbegins, honeLine⟩ := exists_line (head ++ o.ahead.text)
  have hsplit : before ++ line ++ o.after = text := by
    rw [hline, List.append_assoc, o.text_append_after, hopens.1]
  have hend : byteSize (before ++ line) = o.ahead.stop := by
    rw [hline, ← hstop]
    exact (h.of_inline opening).1
  exact ⟨_, o.ahead.text, o.after, hhead, o.text_append_after, hone, hdone, hcontents, hstop, before, line, hline,
    hbegins, honeLine, h.silent_of_inline opening hdone o.after hsplit honeLine hend⟩

end

end Place.ReadsMata

namespace Parse

/-- A mata block of one line takes what is left of the line. Only where that begins with a colon, the second one of the
block, it ends behind the colon. -/
theorem mata_takes_line (text : List Char) (hsize : byteSize text ≤ maxOffset) :
    let p := ofText text
    ∀ q ∈ p.root.nodes, q.kind = .mataBlock → ∃ head rest, q.OpensMata text head rest ∧
      (¬ Lexer.LineDone rest → (∀ more, rest ≠ '{' :: more) →
        ((∀ more, rest ≠ ':' :: more) → q.TakesLine p head rest) ∧
          ∀ more, rest = ':' :: more → q.StopsAtColon head) := by
  intro p q hq hkind
  obtain ⟨b, k, o, bs, m, ts, e, h⟩ := readsMata hsize hq hkind
  obtain ⟨head, hopens, hoffset⟩ := h.opensMata
  refine ⟨head, o.body, hopens, fun hopen hplain => ?_⟩
  have hblock := h.block
  cases hblock with
  | braces opening brace | openBraces opening brace =>
    obtain ⟨inner, hinner⟩ := (Lexer.leftBrace_iff h.mode_eq).mp brace
    exact absurd hinner (hplain inner)
  | lines opening line | openLines opening line =>
    exact absurd ((o.endsLine_iff (by rw [h.mode_eq]; decide)).mp line) hopen
  | inline opening =>
    cases o.headCase h.mode_eq with
    | done _ hdone => exact absurd hdone hopen
    | brace inner hinner => exact absurd hinner (hplain inner)
    | colon more hmore hkind htext =>
      exact ⟨fun hne => absurd hmore (hne more), fun _ _ => h.stopsAtColon opening hoffset hkind htext⟩
    | content c rest hbody hc hkind htext =>
      refine ⟨fun _ => h.takesLine opening hoffset hopens hbody hc.1 hkind htext, fun more hmore => ?_⟩
      exact absurd (List.cons.inj (hbody.symm.trans hmore)).1 hc.2.1

theorem mata_takes_line_after_comment :
    let text := "/* a */ mata: x = \x7b: // \"\nmata:: y\n".toList
    let p := ofText text
    byteSize text ≤ maxOffset ∧
    ∀ q ∈ p.root.nodes, q.kind = .mataBlock → ∃ head rest, q.OpensMata text head rest ∧
      (¬ Lexer.LineDone rest → (∀ more, rest ≠ '{' :: more) →
        ((∀ more, rest ≠ ':' :: more) → q.TakesLine p head rest) ∧
          ∀ more, rest = ':' :: more → q.StopsAtColon head) := by
  have hsize : byteSize "/* a */ mata: x = \x7b: // \"\nmata:: y\n".toList ≤ maxOffset := by decide
  exact ⟨hsize, mata_takes_line _ hsize⟩

/-- Behind the head of a mata block a second colon is not read as content, and what follows it is left over. -/
theorem mata_leaves_line :
    let text := "mata:: x\n".toList
    let p := ofText text
    ∃ q ∈ p.root.nodes, q.kind = .mataBlock ∧ q.OpensMata text "mata:".toList ": x\n".toList ∧
      ¬ q.TakesLine p "mata:".toList ": x\n".toList ∧ ∃ d ∈ p.diagnostics, d.span = ⟨7, 8⟩ := by
  have hnodes : ((ofText "mata:: x\n".toList).root.nodes.filter fun q =>
      q.kind == .mataBlock && q.start == 0 && q.contents.all (·.kind != .mataContent)) ≠ [] := by decide +kernel
  have hspans : (ofText "mata:: x\n".toList).diagnostics.map Diagnostic.span = [⟨7, 8⟩] := by decide +kernel
  obtain ⟨q, hq⟩ := List.exists_mem_of_ne_nil _ hnodes
  obtain ⟨hq, hchoice⟩ := List.mem_filter.mp hq
  simp only [Bool.and_eq_true, beq_iff_eq, List.all_eq_true, bne_iff_ne] at hchoice
  obtain ⟨⟨hkind, hstart⟩, hcontents⟩ := hchoice
  refine ⟨q, hq, hkind, ⟨rfl, [], ":: x\n".toList, rfl, hstart.symm, rfl⟩, ?_, ?_⟩
  · rintro ⟨opening, content, _, -, -, -, -, hrow, -⟩
    obtain ⟨c, hc, hregion⟩ := List.mem_map.mp (hrow ▸ List.mem_append_right opening (List.mem_singleton_self _))
    exact hcontents c hc (congrArg (fun r => r.1.kind) hregion)
  · obtain ⟨d, hd, hspan⟩ := List.mem_map.mp (hspans ▸ List.mem_singleton_self (Span.mk 7 8))
    exact ⟨d, hd, hspan⟩

end Parse

/-! ## Forms -/

theorem Place.childLeaf?_isSome {q : Place} {k : Kind} (hk : k ≠ .whitespace) :
    (q.childLeaf? k).isSome = true ↔ ∃ r ∈ q.contents.map region, r.1.isLeaf = true ∧ r.1.kind = k := by
  simp only [childLeaf?, List.find?_isSome, childLeaves, contents, List.mem_map, List.mem_filter, beq_iff_eq,
    bne_iff_ne]
  constructor
  · rintro ⟨c, ⟨hc, hleaf⟩, hkind⟩
    exact ⟨c.region, ⟨c, ⟨hc, hkind ▸ hk⟩, rfl⟩, hleaf, hkind⟩
  · rintro ⟨_, ⟨c, ⟨hc, -⟩, rfl⟩, hleaf, hkind⟩
    exact ⟨c, ⟨hc, hleaf⟩, hkind⟩

theorem IsMataHead.kinds {start : Nat} {rs : List (Tree × Span)} (h : IsMataHead start rs) :
    ∀ r ∈ rs, r.1.kind = .mataKeyword ∨ r.1.kind = .colon := by
  obtain ⟨colon, rfl, rfl | ⟨offset, rfl⟩⟩ := h <;> simp [Tree.kind]

theorem IsMataBody.kinds {text : List Char} {rs : List (Tree × Span)} (h : IsMataBody text rs) :
    ∀ r ∈ rs, r.1.kind = .newline ∨ r.1.kind = .mataContent := by
  intro r hr
  rcases h.each r hr with ⟨word, hword⟩ | ⟨_, _, _, _, _, -, -, -, -, -, -, rfl⟩
  · exact .inl (by rw [hword]; rfl)
  · exact .inr rfl

namespace Typed

variable {q : Place} {rs : List (Tree × Span)} (h : q.contents.map Place.region = rs)
include h

theorem mataForm_of_brace {r : Tree × Span} (hr : r ∈ rs) (hleaf : r.1.isLeaf = true) (hkind : r.1.kind = .leftBrace) :
    mataForm q = .braced := by
  rw [mataForm, if_pos ((Place.childLeaf?_isSome (by decide)).mpr ⟨r, h ▸ hr, hleaf, hkind⟩)]

theorem mataForm_of_line {r : Tree × Span} (hbrace : ∀ r ∈ rs, r.1.kind ≠ .leftBrace) (hr : r ∈ rs)
    (hleaf : r.1.isLeaf = true) (hkind : r.1.kind = .endKeyword ∨ r.1.kind = .newline) : mataForm q = .multiline := by
  have hnone : ¬ (q.childLeaf? .leftBrace).isSome = true := fun hsome => by
    obtain ⟨r, hr, -, hk⟩ := (Place.childLeaf?_isSome (by decide)).mp hsome
    exact hbrace r (h ▸ hr) hk
  rw [mataForm, if_neg hnone, if_pos]
  rw [Bool.or_eq_true, Place.childLeaf?_isSome (by decide), Place.childLeaf?_isSome (by decide)]
  exact hkind.imp (fun hk => ⟨r, h ▸ hr, hleaf, hk⟩) fun hk => ⟨r, h ▸ hr, hleaf, hk⟩

theorem mataForm_of_rest (hkinds : ∀ r ∈ rs, r.1.kind ∉ [Kind.leftBrace, .endKeyword, .newline]) :
    mataForm q = .inline := by
  have hnone : ∀ k ∈ [Kind.leftBrace, .endKeyword, .newline], ¬ (q.childLeaf? k).isSome = true := fun k hk hsome => by
    obtain ⟨r, hr, -, hkind⟩ := (Place.childLeaf?_isSome (by rintro rfl; exact absurd hk (by decide))).mp hsome
    exact hkinds r (h ▸ hr) (hkind ▸ hk)
  rw [mataForm, if_neg (hnone _ (by decide)), if_neg]
  rw [Bool.or_eq_true]
  exact not_or.mpr ⟨hnone _ (by decide), hnone _ (by decide)⟩

end Typed

namespace Reading

variable {o n : Lexer} {js : List Item}

theorem newline_of_mataLines (line : o.EndsLine) (content : (many MataEnds (take .mataLine)).leads o js n)
    (closer : n.kind ≠ .eof) : o.kind = .newline := by
  refine line.resolve_right fun he => ?_
  cases content with
  | done => exact closer he
  | more hs => exact hs (.inl he)

theorem mem_row_of_newline (hk : o.kind = .newline) (content : (many MataEnds (take .mataLine)).leads o js n) :
    (.leaf .newline o.ahead.text, o.ahead.span) ∈ Item.row o js := by
  cases content with
  | done hends => rcases hends with h | h <;> rw [hk] at h <;> cases h
  | more _ first =>
    obtain ⟨hne, rfl, rfl⟩ := first
    rw [Item.row_append (.take hne .mataLine), Item.row_item, hk]
    exact List.mem_cons_self

end Reading

namespace Place.ReadsMata

variable {text : List Char} {q : Place} {b k o n m e : Lexer} {bs is js ts : List Item}

theorem ne_leftBrace_of_lines (h : q.ReadsMata text b k o bs m ts e) (opening : mataOpening.leads k is o)
    (line : o.EndsLine) (content : (many MataEnds (take .mataLine)).leads o js n) :
    ∀ r ∈ Item.row k (is ++ js), r.1.kind ≠ .leftBrace := by
  rw [Item.row_append (mataOpening.account opening)]
  intro r hr hk
  rcases List.mem_append.mp hr with hr | hr
  · rcases (head_of_opening opening h.word).1.kinds r hr with h | h <;> cases hk.symm.trans h
  · rcases (h.mataRun_of_opening opening line content).body.kinds r hr with h | h <;> cases hk.symm.trans h

/-- The line break behind the head tells a block of several lines, whatever ends it. -/
theorem mataForm_of_lines (h : q.ReadsMata text b k o bs m ts e) (opening : mataOpening.leads k is o)
    (hnewline : o.kind = .newline) (content : (many MataEnds (take .mataLine)).leads o js n)
    {rest : List (Tree × Span)} (hcontents : q.contents.map Place.region = Item.row k (is ++ js) ++ rest)
    (hrest : ∀ r ∈ rest, r.1.kind ≠ .leftBrace) : Typed.mataForm q = .multiline := by
  have hbreak : (.leaf .newline o.ahead.text, o.ahead.span) ∈ Item.row k (is ++ js) := by
    rw [Item.row_append (mataOpening.account opening)]
    exact List.mem_append_right _ (Reading.mem_row_of_newline hnewline content)
  have hlines := h.ne_leftBrace_of_lines opening (.inl hnewline) content
  refine Typed.mataForm_of_line hcontents (fun r hr => ?_) (List.mem_append_left _ hbreak) rfl (.inr rfl)
  exact (List.mem_append.mp hr).elim (hlines r) (hrest r)

theorem mataForm_of_inline (h : q.ReadsMata text b k o [.node .mataBlock (is ++ [o.item])] (o.next .statement) ts e)
    (opening : mataOpening.leads k is o) (brace : o.kind ≠ .leftBrace) (line : ¬ o.EndsLine) :
    Typed.mataForm q = .inline := by
  refine Typed.mataForm_of_rest (h.of_inline opening).2 fun r hr => ?_
  rcases List.mem_append.mp hr with hr | hr
  · rcases (head_of_opening opening h.word).1.kinds r hr with hk | hk <;> rw [hk] <;> decide
  obtain rfl := List.mem_singleton.mp hr
  show o.kind ∉ _
  cases o.headCase h.mode_eq with
  | done hdone => exact absurd hdone line
  | brace _ _ hk => exact absurd hk brace
  | colon _ _ hk | content _ _ _ _ hk =>
    rw [hk]
    decide

/-- The form of a block is told by the token behind its head. -/
theorem mataForm_eq (h : q.ReadsMata text b k o bs m ts e) (hsize : byteSize text ≤ maxOffset)
    (hq : q ∈ (Parse.ofText text).root.elements) :
    Typed.mataForm q = if o.kind = .leftBrace then .braced else if o.kind = .newline then .multiline else .inline := by
  have hblock := h.block
  cases hblock with
  | @braces n is js opening brace content closer =>
    obtain ⟨-, -, -, -, haccount, hrow⟩ := Reading.row_braces opening brace content
    rw [if_pos brace]
    refine Typed.mataForm_of_brace h.of_node.2 (r := (.leaf .leftBrace ['{'], .ofText o.ahead.start ['{'])) ?_ rfl rfl
    rw [Item.row_append haccount, hrow]
    simp
  | @openBraces n is js opening brace content closer =>
    obtain ⟨-, -, -, -, -, hrow⟩ := Reading.row_braces opening brace content
    rw [if_pos brace]
    refine Typed.mataForm_of_brace (h.of_givenUp hsize hq).1.2
      (r := (.leaf .leftBrace ['{'], .ofText o.ahead.start ['{'])) ?_ rfl rfl
    rw [hrow]
    simp
  | @lines n m is js cs opening line content closer comments =>
    have hnewline := Reading.newline_of_mataLines line content (by rw [closer]; decide)
    have hremarks := (Reading.yields_trailingComments (c := fun _ => True) trivial comments).mem
    have hcontents := h.of_node.2
    rw [Reading.row_lines opening content closer, ← Item.row_append (mataOpening.account opening)] at hcontents
    rw [hnewline, if_neg (by decide), if_pos rfl]
    refine h.mataForm_of_lines opening hnewline content hcontents (List.forall_mem_cons.mpr ⟨nofun, fun r hr hk => ?_⟩)
    rcases hremarks _ (Item.mem_trees_of_row hr) with hcomment | herror
    · rw [hk] at hcomment
      cases hcomment
    · cases hk.symm.trans herror
  | @openLines n is js opening line content closer =>
    have hcontents := (h.of_givenUp hsize hq).1.2
    have hbrace : o.kind ≠ .leftBrace := fun hk => Reading.not_endsLine_of_kind (by decide) (by decide) o hk line
    rw [if_neg hbrace]
    by_cases hnewline : o.kind = .newline
    · rw [if_pos hnewline]
      rw [← List.append_nil (Item.row k _)] at hcontents
      exact h.mataForm_of_lines opening hnewline content hcontents nofun
    · -- the head is all that is left of the text
      obtain rfl : js = [] := by
        cases content with
        | done => rfl
        | more hs => exact absurd (.inl (line.resolve_left hnewline)) hs
      rw [List.append_nil] at hcontents
      rw [if_neg hnewline]
      refine Typed.mataForm_of_rest hcontents fun r hr => ?_
      rcases (head_of_opening opening h.word).1.kinds r hr with hk | hk <;> rw [hk] <;> decide
  | inline opening brace line =>
    rw [if_neg brace, if_neg fun hk => line (.inl hk)]
    exact h.mataForm_of_inline opening brace line

end Place.ReadsMata

namespace Parse

/-- The form of a mata block is told by what follows its head: a brace, a line break, or anything else. A head at the
end of the text has the form of a block of one line. -/
theorem mataForm_of_parse (text : List Char) (hsize : byteSize text ≤ maxOffset) :
    ∀ q ∈ (ofText text).root.nodes, q.kind = .mataBlock → ∃ head rest, q.OpensMata text head rest ∧
      (Typed.mataForm q = .braced ↔ ∃ inner, rest = '{' :: inner) ∧
      (Typed.mataForm q = .multiline ↔ Lexer.LineDone rest ∧ rest ≠ []) ∧
      (Typed.mataForm q = .inline ↔ (∀ inner, rest ≠ '{' :: inner) ∧ (Lexer.LineDone rest → rest = [])) := by
  intro q hq hkind
  obtain ⟨b, k, o, bs, m, ts, e, h⟩ := readsMata hsize hq hkind
  obtain ⟨head, hopens, -⟩ := h.opensMata
  have hbrace : o.kind = .leftBrace ↔ ∃ inner, o.body = '{' :: inner := Lexer.leftBrace_iff h.mode_eq
  have hnewline : o.kind = .newline ↔ Lexer.LineDone o.body ∧ o.body ≠ [] := by
    rw [← o.endsLine_iff (by rw [h.mode_eq]; decide), Ne, ← o.kind_eq_eof_iff, Lexer.EndsLine]
    constructor
    · exact fun hk => ⟨.inl hk, by rw [hk]; decide⟩
    · intro hk
      exact hk.1.resolve_right hk.2
  have hother : (∀ inner, o.body ≠ '{' :: inner) ∧ (Lexer.LineDone o.body → o.body = []) ↔
      o.kind ≠ .leftBrace ∧ o.kind ≠ .newline := by
    rw [Ne, Ne, hbrace, hnewline, not_exists, not_and_not_right]
  refine ⟨head, o.body, hopens, ?_⟩
  rw [h.mataForm_eq hsize (Place.mem_nodes_iff.mp hq).1, hother, ← hbrace, ← hnewline]
  by_cases hkind : o.kind = .leftBrace
  · simp [hkind]
  · by_cases hline : o.kind = .newline <;> simp [hkind, hline]

theorem mataForm_of_parse_mixed :
    let text := "mata: \x7b x \x7d\nmata\nx\nend\nmata x = \x7b\nmata \x7b".toList
    byteSize text ≤ maxOffset ∧
    ∀ q ∈ (ofText text).root.nodes, q.kind = .mataBlock → ∃ head rest, q.OpensMata text head rest ∧
      (Typed.mataForm q = .braced ↔ ∃ inner, rest = '{' :: inner) ∧
      (Typed.mataForm q = .multiline ↔ Lexer.LineDone rest ∧ rest ≠ []) ∧
      (Typed.mataForm q = .inline ↔ (∀ inner, rest ≠ '{' :: inner) ∧ (Lexer.LineDone rest → rest = [])) := by
  have hsize : byteSize "mata: \x7b x \x7d\nmata\nx\nend\nmata x = \x7b\nmata \x7b".toList ≤ maxOffset := by decide
  exact ⟨hsize, mataForm_of_parse _ hsize⟩

/-- A head at the end of the text is read as the first line of several, and is not told from a block of one line. -/
theorem mataForm_at_end :
    let text := "mata".toList
    let p := ofText text
    ∃ q ∈ p.root.nodes, q.kind = .mataBlock ∧ q.OpensMata text text [] ∧ Typed.mataForm q = .inline ∧
      p.GivesUp q "missing `end` for mata" ⟨0, 4⟩ := by
  have hnodes : ((ofText "mata".toList).root.nodes.filter fun q => q.kind == .mataBlock && q.start == 0 &&
      Typed.mataForm q == .inline &&
        q.parent?.any fun e => e.kind == .error && e.children == [q]) ≠ [] := by decide +kernel
  have hcount : ((ofText "mata".toList).diagnostics.countP fun d =>
      d.message == "missing `end` for mata" && d.span == ⟨0, 4⟩) = 1 := by decide +kernel
  obtain ⟨q, hq⟩ := List.exists_mem_of_ne_nil _ hnodes
  obtain ⟨hq, hchoice⟩ := List.mem_filter.mp hq
  simp only [Bool.and_eq_true, beq_iff_eq, Option.any_eq_true] at hchoice
  obtain ⟨⟨⟨hkind, hstart⟩, hform⟩, e, hparent, herror, halone⟩ := hchoice
  exact ⟨q, hq, hkind, ⟨rfl, [], [], rfl, hstart.symm, rfl⟩, hform, ⟨e, hparent, herror, halone⟩, hcount⟩

end Parse

end Dofile
