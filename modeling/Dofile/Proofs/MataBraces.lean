import Dofile.Proofs.MataHead

/-!
# Mata blocks in braces

A mata block in braces goes up to the brace that closes it: the first one up to which there is one more `}` than
there are `{` behind the opening one. The scan for it counts the braces still open.
-/

namespace Dofile

open Reading (mataOpening eat)

def ClosesBrace (text upTo : List Char) : Prop :=
  (upTo <+: text ∧ upTo.count '}' = upTo.count '{' + 1) ∧
    ∀ p, p <+: text → p.count '}' = p.count '{' + 1 → upTo <+: p

/-- Whether the count of open braces is right all through a content: behind each beginning of it, the scan goes on
with as many as there are `{` but no `}` for, so it never counts below zero. -/
def CountsBraces (content : List Char) : Prop :=
  ∀ x y, x ++ y = content → ∃ depth, depth + x.count '}' = x.count '{' ∧
    ∀ rest, Lexeme.braceContent 0 (x ++ rest) = x ++ Lexeme.braceContent depth rest

namespace Lexeme

theorem ne_close {depth : Nat} {c : Char} (hdone : depth = 0 → c = '}' → False)
    (hclose : ∀ depth', depth = depth' + 1 → c = '}' → False) : c ≠ '}' := fun h => by
  cases depth with
  | zero => exact hdone rfl h
  | succ depth => exact hclose depth rfl h

theorem count_open (c : Char) (depth : Nat) (text : List Char) :
    depth + (c :: text).count '{' = (if c == '{' then depth + 1 else depth) + text.count '{' := by
  rw [List.count_cons]
  split <;> omega

theorem braceContent_append (depth : Nat) (text : List Char) : ∀ x y, x ++ y = braceContent depth text →
    ∃ depth', depth' + x.count '}' = depth + x.count '{' ∧
      ∀ rest, braceContent depth (x ++ rest) = x ++ braceContent depth' rest := by
  -- the depth is part of the statement, since each brace of the content changes it for what follows
  fun_induction braceContent depth text with
  | case1 depth =>
    intro x y h
    obtain ⟨rfl, -⟩ := List.append_eq_nil_iff.mp h
    exact ⟨depth, rfl, fun _ => rfl⟩
  | case2 =>
    intro x y h
    obtain ⟨rfl, -⟩ := List.append_eq_nil_iff.mp h
    exact ⟨0, rfl, fun _ => rfl⟩
  | case3 depth rest ih =>
    rintro (_ | ⟨c, x⟩) y h
    · exact ⟨depth + 1, rfl, fun _ => rfl⟩
    · obtain ⟨rfl, htail⟩ := List.cons.inj h
      obtain ⟨depth', hcount, hscan⟩ := ih x y htail
      refine ⟨depth', ?_, fun rest => ?_⟩
      · rw [List.count_cons_self, List.count_cons_of_ne (by decide)]
        omega
      · rw [List.cons_append, braceContent, hscan]
        rfl
  | case4 depth c rest hdone hclose ih =>
    have hc : c ≠ '}' := ne_close hdone hclose
    rintro (_ | ⟨c', x⟩) y h
    · exact ⟨depth, rfl, fun _ => rfl⟩
    · obtain ⟨rfl, htail⟩ := List.cons.inj h
      obtain ⟨depth', hcount, hscan⟩ := ih x y htail
      refine ⟨depth', ?_, fun rest => ?_⟩
      · rw [List.count_cons_of_ne hc, count_open, hcount]
      · rw [List.cons_append, braceContent_cons hc, hscan]
        rfl

/-- The scan stops at the end of the text, or before a `}` that no `{` in the content is for. -/
theorem braceContent_rest (depth : Nat) (text : List Char) : ∃ rest, braceContent depth text ++ rest = text ∧
    (rest = [] ∨ (∃ more, rest = '}' :: more) ∧
      (braceContent depth text).count '}' = depth + (braceContent depth text).count '{') := by
  fun_induction braceContent depth text with
  | case1 => exact ⟨[], rfl, .inl rfl⟩
  | case2 rest => exact ⟨'}' :: rest, rfl, .inr ⟨⟨rest, rfl⟩, rfl⟩⟩
  | case3 depth rest ih =>
    obtain ⟨more, hmore, hend⟩ := ih
    refine ⟨more, congrArg ('}' :: ·) hmore, hend.imp_right (And.imp_right fun hcount => ?_)⟩
    rw [List.count_cons_self, List.count_cons_of_ne (by decide), hcount]
    omega
  | case4 depth c rest hdone hclose ih =>
    have hc : c ≠ '}' := ne_close hdone hclose
    obtain ⟨more, hmore, hend⟩ := ih
    refine ⟨more, congrArg (c :: ·) hmore, hend.imp_right (And.imp_right fun hcount => ?_)⟩
    rw [List.count_cons_of_ne hc, count_open, hcount]

end Lexeme

theorem countsBraces_content (text : List Char) : CountsBraces (Lexeme.braceContent 0 text) := fun x y h => by
  obtain ⟨depth, hcount, hscan⟩ := Lexeme.braceContent_append 0 text x y h
  exact ⟨depth, by rw [hcount, Nat.zero_add], hscan⟩

theorem CountsBraces.count_le {content p : List Char} (h : CountsBraces content) (hp : p <+: content) :
    p.count '}' ≤ p.count '{' := by
  obtain ⟨y, hy⟩ := hp
  obtain ⟨depth, hcount, -⟩ := h p y hy
  omega

theorem closesBrace_of_content {content : List Char} (more : List Char) (h : CountsBraces content)
    (hcount : content.count '}' = content.count '{') : ClosesBrace (content ++ '}' :: more) (content ++ ['}']) := by
  have hfront : content ++ ['}'] <+: content ++ '}' :: more := ⟨more, by simp⟩
  refine ⟨⟨hfront, by simp [hcount]⟩, fun p hp hsurplus => ?_⟩
  rcases List.prefix_or_prefix_of_prefix hfront hp with hle | hle
  · exact hle
  · rcases List.prefix_concat_iff.mp hle with rfl | hle
    · exact List.prefix_refl _
    · have := h.count_le hle
      omega

/-! ## Blocks in braces -/

def mataContent (start : Nat) (content : List Char) : List (Tree × Span) :=
  if content = [] then [] else [(.leaf .mataContent content, .ofText start content)]

inductive BraceCase (l : Lexer) : Prop where
  | done (rest : l.rest = []) (kind : l.kind = .eof)
  | close (more : List Char) (rest : l.rest = '}' :: more) (kind : l.kind = .rightBrace) (text : l.ahead.text = ['}'])
  | content (content : Lexeme.braceContent 0 l.rest ≠ []) (kind : l.kind = .mataContent)
    (text : l.ahead.text = Lexeme.braceContent 0 l.rest)

namespace Lexer

variable {l n : Lexer} {js : List Item}

theorem braceCase (hmode : l.mode = .mataBrace) : BraceCase l := by
  have hbody : l.body = l.rest := l.body_of_skipsBlanks_eq_false (by rw [hmode]; rfl)
  have hlexeme : l.mode.lexeme l.fresh l.body = Lexeme.mataBrace l.rest := by rw [hmode, hbody]; rfl
  have hkind : l.kind = (Lexeme.mataBrace l.rest).kind := hlexeme ▸ l.kind_eq
  have htext : l.ahead.text = (Lexeme.mataBrace l.rest).text := hlexeme ▸ rfl
  cases hrest : l.rest with
  | nil => exact .done hrest (by rw [hkind, hrest]; rfl)
  | cons c rest =>
    rw [hrest] at hkind htext
    by_cases hc : c = '}'
    · subst hc
      exact .close rest hrest hkind htext
    · rw [Lexeme.mataBrace_cons hc, ← hrest] at hkind htext
      exact .content (by rw [hrest, Lexeme.braceContent_cons hc]; exact List.cons_ne_nil _ _) hkind htext

theorem rightBrace_iff (hmode : l.mode = .mataBrace) : l.kind = .rightBrace ↔ ∃ more, l.rest = '}' :: more := by
  cases l.braceCase hmode with
  | done hrest hkind => simp [hrest, hkind]
  | close more hrest hkind => simp [hrest, hkind]
  | content hcontent hkind =>
    refine iff_of_false (by rw [hkind]; decide) ?_
    rintro ⟨more, hmore⟩
    rw [hmore] at hcontent
    exact hcontent rfl

theorem text_of_rightBrace (hmode : l.mode = .mataBrace) (hk : l.kind = .rightBrace) : l.ahead.text = ['}'] := by
  cases l.braceCase hmode with
  | close _ _ _ htext => exact htext
  | done _ hkind | content _ hkind =>
    rw [hk] at hkind
    cases hkind

/-- The content of a block in braces is what the scan for the closing brace passes. -/
theorem content_of_eat (hmode : l.mode = .mataBrace) (h : (eat .mataContent .mataBrace).leads l js n) :
    Item.row l js = mataContent l.offset (Lexeme.braceContent 0 l.rest) ∧ n.mode = .mataBrace ∧
      Lexeme.braceContent 0 l.rest ++ n.rest = l.rest ∧
      n.offset = l.offset + byteSize (Lexeme.braceContent 0 l.rest) := by
  rcases h with ⟨hkind, -, rfl, rfl⟩ | ⟨hkind, rfl, rfl⟩
  · cases l.braceCase hmode with
    | done _ hk | close _ _ hk =>
      rw [hkind] at hk
      cases hk
    | content hcontent _ htext =>
      have hstart : l.ahead.start = l.offset := start_eq_offset (by rw [hmode]; rfl)
      have hspan : l.ahead.span = .ofText l.offset l.ahead.text := by rw [Token.span, Token.stop, hstart]; rfl
      rw [mataContent, if_neg hcontent, Item.row_item, hkind, hspan, ← htext]
      refine ⟨rfl, rfl, ?_, ?_⟩
      · rw [next_rest, l.text_append_after, l.body_of_skipsBlanks_eq_false (by rw [hmode]; rfl)]
      · rw [next_offset, Token.stop, hstart]
  · have hnone : Lexeme.braceContent 0 n.rest = [] := by
      cases n.braceCase hmode with
      | done hrest => rw [hrest]; rfl
      | close more hrest => rw [hrest]; rfl
      | content _ hk => exact absurd hk hkind
    rw [hnone]
    exact ⟨rfl, hmode, rfl, rfl⟩

end Lexer

namespace Reading

variable {k o n : Lexer} {is js : List Item}

/-- The leaves of a block in braces up to its closing brace, and what is left there of the text behind the opening
one. -/
theorem row_braces (opening : mataOpening.leads k is o)
    (brace : o.kind = .leftBrace) (content : (eat .mataContent .mataBrace).leads (o.next .mataBrace) js n) :
    o.body = '{' :: o.after ∧ n.mode = .mataBrace ∧ Lexeme.braceContent 0 o.after ++ n.rest = o.after ∧
      n.ahead.start = o.ahead.start + 1 + byteSize (Lexeme.braceContent 0 o.after) ∧
      Account k (is ++ o.item :: js) n ∧ Item.row k (is ++ o.item :: js) = Item.row k is ++
        (.leaf .leftBrace ['{'], .ofText o.ahead.start ['{']) ::
          mataContent (o.ahead.start + 1) (Lexeme.braceContent 0 o.after) := by
  have htext : o.ahead.text = ['{'] := (Lexer.text_of_mark (mode_of_mataOpening opening)).2 brace
  have hstop : (o.next .mataBrace).offset = o.ahead.start + 1 := by rw [Lexer.next_offset, Token.stop, htext]; rfl
  obtain ⟨hrow, hmode, hrest, hoffset⟩ := Lexer.content_of_eat rfl content
  have hopen := mataOpening.account opening
  have hbrace : Account o [o.item] (o.next .mataBrace) := .take (by rw [brace]; decide) _
  have hcontent := (eat .mataContent .mataBrace).account content
  refine ⟨Lexer.body_of_text htext, hmode, hrest, ?_, hopen.append (hbrace.append hcontent), ?_⟩
  · rw [Lexer.start_eq_offset (by rw [hmode]; rfl), hoffset, hstop]
    rfl
  · have hspan : o.ahead.span = .ofText o.ahead.start ['{'] := by rw [Token.span, Token.stop, htext]; rfl
    rw [Item.row_append hopen, ← List.singleton_append, Item.row_append hbrace, Item.row_item, brace, hspan, htext,
      hrow, hstop]
    rfl

end Reading

namespace Place.ReadsMata

variable {text : List Char} {q : Place} {b k o n m e : Lexer} {is js ts : List Item}

/-- A block in braces ends at the brace that closes it. -/
theorem closed_braces (h : q.ReadsMata text b k o [.node .mataBlock (is ++ o.item :: js ++ [n.item])] m ts e)
    (opening : mataOpening.leads k is o) (brace : o.kind = .leftBrace)
    (content : (eat .mataContent .mataBrace).leads (o.next .mataBrace) js n) (closer : n.kind = .rightBrace) :
    let inside := Lexeme.braceContent 0 o.after
    ClosesBrace o.after (inside ++ ['}']) ∧ q.contents.map Place.region = Item.row k is ++
      (.leaf .leftBrace ['{'], .ofText o.ahead.start ['{']) :: mataContent (o.ahead.start + 1) inside ++
        [(.leaf .rightBrace ['}'], .ofText (o.ahead.start + byteSize (inside ++ ['}'])) ['}'])] := by
  intro inside
  obtain ⟨-, hmode, hrest, hstart, haccount, hrow⟩ := Reading.row_braces opening brace content
  obtain ⟨rest, hcut, hend⟩ := Lexeme.braceContent_rest 0 o.after
  obtain rfl : rest = n.rest := List.append_cancel_left (hcut.trans hrest.symm)
  obtain ⟨more, hmore⟩ := (Lexer.rightBrace_iff hmode).mp closer
  have hcount : inside.count '}' = inside.count '{' := by
    simpa using (hend.resolve_left (by rw [hmore]; exact List.cons_ne_nil _ _)).2
  have htext : n.ahead.text = ['}'] := Lexer.text_of_rightBrace hmode closer
  have hspan : n.ahead.span = .ofText (o.ahead.start + byteSize (inside ++ ['}'])) ['}'] := by
    rw [Token.span, Token.stop, htext, hstart, byteSize_append, Nat.add_assoc, Nat.add_comm 1]
    rfl
  constructor
  · have hcloses := closesBrace_of_content more (countsBraces_content o.after) hcount
    rwa [← hmore, hrest] at hcloses
  · rw [h.of_node.2, Item.row_append haccount, hrow, Item.row_item, closer, htext, hspan]

/-- A block in braces that is not closed goes on to the end of the text. -/
theorem open_braces (h : q.ReadsMata text b k o
    [.enclosed .mataBlock (is ++ o.item :: js ++ [.found ⟨.missingMataBrace, k.ahead.span⟩])] m ts e)
    (hsize : byteSize text ≤ maxOffset) (hq : q ∈ (Parse.ofText text).root.elements)
    (opening : mataOpening.leads k is o) (brace : o.kind = .leftBrace)
    (content : (eat .mataContent .mataBrace).leads (o.next .mataBrace) js n) (closer : n.kind ≠ .rightBrace) :
    let inside := Lexeme.braceContent 0 o.after
    (∀ x, x <+: o.after → x.count '}' ≠ x.count '{' + 1) ∧ inside = o.after ∧ q.contents.map Place.region =
      Item.row k is ++ (.leaf .leftBrace ['{'], .ofText o.ahead.start ['{']) ::
        mataContent (o.ahead.start + 1) inside ∧
      (Parse.ofText text).GivesUp q "missing `\x7d` for mata" ⟨q.start, q.start + 4⟩ := by
  intro inside
  obtain ⟨-, hmode, hrest, -, -, hrow⟩ := Reading.row_braces opening brace content
  obtain ⟨rest, hcut, hend⟩ := Lexeme.braceContent_rest 0 o.after
  obtain rfl : rest = n.rest := List.append_cancel_left (hcut.trans hrest.symm)
  have hnone : n.rest = [] := hend.resolve_right fun hend => closer ((Lexer.rightBrace_iff hmode).mpr hend.1)
  have hall : inside = o.after := by rwa [hnone, List.append_nil] at hrest
  refine ⟨fun x hx => ?_, hall, ?_, h.givesUp hsize hq ?_⟩
  · have := (countsBraces_content o.after).count_le (hall.symm ▸ hx)
    omega
  · rw [(h.of_givenUp hsize hq).1.2, hrow]
  · have hhead := Reading.findings_of_mataOpening opening
    have hinside := Reading.findings_of_content content
    simp [Item.findingsAll_append, Item.findingsAll, Item.findings, Lexer.item, hhead, hinside]

end Place.ReadsMata

namespace Parse

/-- A mata block in braces ends at the brace that closes it, and what is between the braces is one leaf. Without such
a brace it holds all that is left of the text, and is given up. -/
theorem mata_braces_up_to_match (text : List Char) (hsize : byteSize text ≤ maxOffset) :
    let p := ofText text
    ∀ q ∈ p.root.nodes, q.kind = .mataBlock → ∃ head rest, q.OpensMata text head rest ∧ ∀ inner, rest = '{' :: inner →
      let b := byteSize head
      ∃ opening content, IsMataHead q.start opening ∧ CountsBraces content ∧
        (ClosesBrace inner (content ++ ['}']) ∧ q.contents.map Place.region = opening ++
          (.leaf .leftBrace ['{'], .ofText b ['{']) :: mataContent (b + 1) content ++
            [(.leaf .rightBrace ['}'], .ofText (b + byteSize (content ++ ['}'])) ['}'])] ∨
        (∀ x, x <+: inner → x.count '}' ≠ x.count '{' + 1) ∧ content = inner ∧ q.contents.map Place.region = opening ++
          (.leaf .leftBrace ['{'], .ofText b ['{']) :: mataContent (b + 1) content ∧
            p.GivesUp q "missing `\x7d` for mata" ⟨q.start, q.start + 4⟩) := by
  intro p q hq hkind
  obtain ⟨b, k, o, bs, m, ts, e, h⟩ := readsMata hsize hq hkind
  obtain ⟨head, hopens, hoffset⟩ := h.opensMata
  refine ⟨head, o.body, hopens, fun inner hinner => ?_⟩
  have hbrace : o.kind = .leftBrace := (Lexer.leftBrace_iff h.mode_eq).mpr ⟨inner, hinner⟩
  obtain rfl : o.after = inner := by
    have hbody := Lexer.body_of_text ((Lexer.text_of_mark h.mode_eq).2 hbrace)
    exact (List.cons.inj (hbody.symm.trans hinner)).2
  have hcounts := countsBraces_content o.after
  rw [hoffset]
  have hblock := h.block
  cases hblock with
  | lines opening line | openLines opening line =>
    exact absurd line (Reading.not_endsLine_of_kind (by decide) (by decide) o hbrace)
  | inline opening brace => exact absurd hbrace brace
  | @braces n is js opening _ content closer =>
    have hhead := h.start_eq ▸ (head_of_opening opening h.word).1
    exact ⟨_, _, hhead, hcounts, .inl (h.closed_braces opening hbrace content closer)⟩
  | @openBraces n is js opening _ content closer =>
    have hhead := h.start_eq ▸ (head_of_opening opening h.word).1
    have hmem := (Place.mem_nodes_iff.mp hq).1
    exact ⟨_, _, hhead, hcounts, .inr (h.open_braces hsize hmem opening hbrace content closer)⟩

theorem mata_braces_up_to_match_nested :
    let text := "mata \x7b\n if (x) \x7b y \x7d\n\x7d\nmata: \x7b\x7d\nmata \x7b \x7b".toList
    let p := ofText text
    byteSize text ≤ maxOffset ∧
    ∀ q ∈ p.root.nodes, q.kind = .mataBlock → ∃ head rest, q.OpensMata text head rest ∧ ∀ inner, rest = '{' :: inner →
      let b := byteSize head
      ∃ opening content, IsMataHead q.start opening ∧ CountsBraces content ∧
        (ClosesBrace inner (content ++ ['}']) ∧ q.contents.map Place.region = opening ++
          (.leaf .leftBrace ['{'], .ofText b ['{']) :: mataContent (b + 1) content ++
            [(.leaf .rightBrace ['}'], .ofText (b + byteSize (content ++ ['}'])) ['}'])] ∨
        (∀ x, x <+: inner → x.count '}' ≠ x.count '{' + 1) ∧ content = inner ∧ q.contents.map Place.region = opening ++
          (.leaf .leftBrace ['{'], .ofText b ['{']) :: mataContent (b + 1) content ∧
            p.GivesUp q "missing `\x7d` for mata" ⟨q.start, q.start + 4⟩) := by
  have hsize : byteSize "mata \x7b\n if (x) \x7b y \x7d\n\x7d\nmata: \x7b\x7d\nmata \x7b \x7b".toList ≤ maxOffset := by decide
  exact ⟨hsize, mata_braces_up_to_match _ hsize⟩

end Parse

end Dofile
