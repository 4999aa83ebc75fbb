import Dofile.Proofs.MataBlock
import Dofile.Proofs.Regions

/-!
# The line of a mata block

A mata block stands on a line that only comments share with it, and nothing is found across the ends of
that line: what is found elsewhere in a text lies before it or behind it.
-/

namespace Dofile

open Reading (mataBlock endOfLine trailingComments remnant comment)

def BeginsLine (before : List Char) : Prop := ∀ c ∈ before.getLast?, isLineBreak c = true

theorem beginsLine_append {a b : List Char} (hb : b ≠ []) : BeginsLine (a ++ b) ↔ BeginsLine b := by
  rw [BeginsLine, BeginsLine, List.getLast?_append, List.getLast?_eq_some_getLast hb]
  rfl

namespace Lexer

def StartsLine (text : List Char) (l : Lexer) : Prop :=
  ∃ before, before ++ l.rest = text ∧ l.offset = byteSize before ∧ BeginsLine before

theorem startsLine_ofText (text : List Char) : (ofText text).StartsLine text :=
  ⟨[], rfl, rfl, fun _ h => by cases h⟩

theorem breaks_of_newline {l : Lexer} (h : l.kind = .newline) :
    l.ahead.text ≠ [] ∧ ∀ c ∈ l.ahead.text, isLineBreak c = true := by
  refine ⟨fun hn => ?_, ?_⟩
  · rw [l.text_eq_nil_iff.mp hn] at h
    cases h
  rw [kind_eq] at h
  rw [ahead_eq]
  have hmode : l.mode ≠ .mataBrace := fun hm => by
    rw [hm] at h
    cases hbody : l.body with
    | nil => rw [hbody] at h; cases h
    | cons c rest =>
      rw [hbody] at h
      have hmem := Lexeme.mataBrace_kind_mem c rest
      rw [show (Lexeme.mataBrace (c :: rest)).kind = _ from h] at hmem
      exact absurd hmem (by decide)
  cases hbody : l.body with
  | nil => rw [hbody, Mode.lexeme_nil] at h; cases h
  | cons c rest =>
    rw [hbody] at h
    have hc := (Mode.lexeme_kind_eq_newline_iff hmode l.fresh c rest).mp h
    rw [Mode.lexeme_of_lineBreak hmode l.fresh hc]
    unfold Lexeme.lineBreak
    split
    · exact List.forall_mem_cons.mpr ⟨hc, by simp [isLineBreak]⟩
    · exact List.forall_mem_singleton.mpr hc

theorem startsLine_next {text : List Char} {l : Lexer} (h : l.Stands text) (hk : l.kind = .newline) (mode : Mode) :
    (l.next mode).StartsLine text := by
  obtain ⟨before, htext, hoffset, -⟩ := h.next mode
  refine ⟨before, htext, hoffset, ?_⟩
  obtain ⟨before', htext', -, -⟩ := h
  obtain ⟨hne, hbreaks⟩ := breaks_of_newline hk
  have hbefore : before = before' ++ l.leading ++ l.ahead.text := by
    rw [← htext', ← l.fullText_append_after, next_rest, ← List.append_assoc] at htext
    rw [List.append_cancel_right htext, Token.fullText, ← List.append_assoc]
    rfl
  rw [hbefore, beginsLine_append hne]
  exact fun c hc => hbreaks c (List.mem_of_mem_getLast? hc)

def Ready (text : List Char) (l : Lexer) : Prop := l.Stands text ∧ (l.StartsLine text ∨ l.EndsLine)

end Lexer

namespace Reading

def mataLine : Reading :=
  (many (·.kind ≠ .blockComment) comment).seq ((mataBlock.when (·.IsWordOf ["mata"])).seq endOfLine)

theorem lacks_comments : (many (·.kind ≠ .blockComment) comment).Lacks Kind.blocks :=
  (lacks_comment Kind.isStatement_of_mem_blocks (by decide)).many _

theorem derives_comments : Derives .line (fun _ => True) (many (·.kind ≠ .blockComment) comment) :=
  Derives.many (derives_comment.of fun l h => by rw [Classical.not_not.mp h.2]; rfl) fun _ _ => trivial

theorem lacks_endOfLine : endOfLine.Lacks Kind.blocks :=
  (lacks_trailingComments Kind.isStatement_of_mem_blocks).seq
    ((lacks_remnant Kind.isStatement_of_mem_blocks).seq (lacks_eat Kind.isStatement_of_mem_blocks _ _))

theorem endsLine_of_remnant {l m : Lexer} {items : List Item} (h : remnant.leads l items m) : m.EndsLine := by
  rcases h with ⟨hl, -, rfl⟩ | ⟨-, _, ⟨_, _, _, -, harguments, -⟩, -⟩
  · exact hl
  · exact stops_of_many harguments

/-- The end of a line is what is left of it, and its line break. -/
theorem endOfLine_cases {l m : Lexer} {items : List Item} (h : endOfLine.leads l items m) :
    ∃ is k js, (trailingComments.seq remnant).leads l is k ∧ k.EndsLine ∧ (eat .newline .statement).leads k js m ∧
      items = is ++ js := by
  obtain ⟨cs, _, _, hcomments, ⟨rs, k, js, hrest, hbreak, rfl⟩, rfl⟩ := h
  exact ⟨cs ++ rs, k, js, ⟨cs, _, rs, hcomments, hrest, rfl⟩, endsLine_of_remnant hrest, hbreak,
    (List.append_assoc ..).symm⟩

theorem derives_lineRest : Derives .line (fun _ => True) (trailingComments.seq remnant) :=
  derives_trailingComments.seq (fun _ _ => trivial) derives_remnant

theorem lacks_lineRest : (trailingComments.seq remnant).Lacks Kind.blocks :=
  (lacks_trailingComments Kind.isStatement_of_mem_blocks).seq (lacks_remnant Kind.isStatement_of_mem_blocks)

end Reading

theorem Bounded.lineBreak {l m : Lexer} {items : List Item} (h : (Reading.eat .newline .statement).leads l items m) :
    Bounded l items m := by
  refine .silent (Reading.derives_eat (p := fun _ => True) (by decide) (by decide) trivial h) ?_
  rcases h with ⟨-, -, rfl, -⟩ | ⟨-, rfl, -⟩ <;> rfl

theorem Bounded.endOfLine {l m : Lexer} {items : List Item} (h : Reading.endOfLine.leads l items m) :
    Bounded l items m := by
  obtain ⟨is, k, js, hrest, hk, hbreak, rfl⟩ := Reading.endOfLine_cases h
  exact (Bounded.plain (Reading.derives_lineRest trivial hrest) (Reading.lacks_lineRest hrest) hk).append
    (.lineBreak hbreak)

/-! ## Stretches with mata blocks -/

/-- Whether a stretch of a text, from `b` to `e`, lies in another. Besides what is found in it there is what is
found before it and behind it. -/
structure Lies (b : Lexer) (bs : List Item) (e l : Lexer) (items : List Item) (m : Lexer) : Prop where
  start : l.offset ≤ b.offset
  behind : l.EndsLine → l.ahead.stop ≤ b.offset
  stop : e.offset ≤ m.offset
  atEnd : e.kind = .eof → m = e
  regions : Item.regions b bs ⊆ Item.regions l items
  found : ∃ fs gs, Item.findingsAll items = fs ++ Item.findingsAll bs ++ gs ∧
    ∀ f ∈ fs ++ gs, f.span.stop ≤ b.offset ∨ e.kind ≠ .eof ∧ e.offset ≤ f.span.start

namespace Lies

variable {b e l m m' : Lexer} {bs is js : List Item}

theorem append (h : Lies b bs e l is m) (haccount : Account l is m) (h' : Bounded m js m')
    (hstop : m.kind = .eof → js = [] ∧ m' = m) : Lies b bs e l (is ++ js) m' := by
  have hatEnd : e.kind = .eof → js = [] ∧ m' = e := fun he => by
    obtain rfl := h.atEnd he
    exact hstop he
  obtain ⟨fs, gs, hfound, hothers⟩ := h.found
  refine ⟨h.start, h.behind, Nat.le_trans h.stop h'.account.offset_le, fun he => (hatEnd he).2, ?_,
    fs, gs ++ Item.findingsAll js, by rw [Item.findingsAll_append, hfound]; simp, fun f hf => ?_⟩
  · rw [Item.regions_append haccount]
    exact List.Subset.trans h.regions (List.subset_append_left ..)
  · rw [← List.append_assoc, List.mem_append] at hf
    refine hf.elim (hothers f) fun hf => .inr ⟨fun he => ?_, Nat.le_trans h.stop (h'.found f hf).1⟩
    obtain ⟨rfl, -⟩ := hatEnd he
    cases hf

theorem after (h : Lies b bs e m js m') (h' : Bounded l is m) : Lies b bs e l (is ++ js) m' := by
  have hbehind : l.EndsLine → l.ahead.stop ≤ b.offset := fun hl => by
    rcases h'.reach with rfl | hle
    · exact h.behind hl
    · exact Nat.le_trans hle h.start
  obtain ⟨fs, gs, hfound, hothers⟩ := h.found
  refine ⟨Nat.le_trans h'.account.offset_le h.start, hbehind, h.stop, h.atEnd, ?_,
    Item.findingsAll is ++ fs, gs, by rw [Item.findingsAll_append, hfound]; simp, fun f hf => ?_⟩
  · rw [Item.regions_append h'.account]
    exact List.Subset.trans h.regions (List.subset_append_right ..)
  · rw [List.append_assoc, List.mem_append] at hf
    refine hf.elim (fun hf => .inl ?_) (hothers f)
    rcases (h'.found f hf).2 with hf | ⟨hm, hf⟩
    · exact Nat.le_trans hf h.start
    · exact Nat.le_trans hf (h.behind hm)

theorem node (h : Lies b bs e l is m) (haccount : Account l is m) {kind : Kind} (hk : kind.isNode = true) :
    Lies b bs e l [.node kind is] m := by
  refine ⟨h.start, h.behind, h.stop, h.atEnd, ?_, by simpa [Item.findingsAll, Item.findings] using h.found⟩
  rw [Item.regions_node haccount (ne_whitespace_of_isNode hk)]
  exact List.subset_cons_of_subset _ h.regions

theorem givenUp (h : Lies b bs e l is m) (haccount : Account l is m) (hle : l.ahead.stop ≤ b.offset) {kind : Kind}
    (hk : kind.isNode = true) (problem : Problem) :
    Lies b bs e l [.enclosed kind (is ++ [.found ⟨problem, l.ahead.span⟩])] m := by
  obtain ⟨fs, gs, hfound, hothers⟩ := h.found
  refine ⟨h.start, h.behind, h.stop, h.atEnd, ?_, fs, gs ++ [⟨problem, l.ahead.span⟩],
    by rw [Item.findingsAll_givenUp, hfound]; simp, fun f hf => ?_⟩
  · rw [Item.regions_givenUp haccount (ne_whitespace_of_isNode hk)]
    exact List.subset_cons_of_subset _ (List.subset_cons_of_subset _ h.regions)
  · rw [← List.append_assoc, List.mem_append, List.mem_singleton] at hf
    exact hf.elim (hothers f) fun hf => .inl (hf ▸ hle)

end Lies

structure OnLine (text : List Char) (r : Tree × Span) (b : Lexer) (bs : List Item) (e : Lexer) : Prop where
  line : Reading.mataLine.leads b bs e
  stands : b.Stands text
  start : b.StartsLine text
  region : r ∈ Item.regions b bs

structure Blocks (text : List Char) (l : Lexer) (items : List Item) (m : Lexer) : Prop extends Bounded l items m where
  blocks : ∀ r ∈ Item.regions l items, r.1.kind = .mataBlock →
    ∃ b bs e, OnLine text r b bs e ∧ Lies b bs e l items m

namespace Blocks

variable {text : List Char} {l m m' : Lexer} {is js : List Item}

theorem ne_mataBlock (hlacks : ∀ t ∈ Item.trees is, t.Lacks Kind.blocks) {r : Tree × Span}
    (hr : r ∈ Item.regions l is) : r.1.kind ≠ .mataBlock := fun hk =>
  Item.regions_all hlacks r hr (by rw [hk]; decide)

theorem plain (h : Bounded l is m) (hlacks : ∀ t ∈ Item.trees is, t.Lacks Kind.blocks) : Blocks text l is m where
  toBounded := h
  blocks _ hr hk := absurd hk (ne_mataBlock hlacks hr)

/-- Behind a block that goes on to the end of the text there is nothing more. -/
theorem append (h : Blocks text l is m) (h' : Blocks text m js m')
    (hstop : (∀ t ∈ Item.trees is, t.Lacks Kind.blocks) ∨ (m.kind = .eof → js = [] ∧ m' = m)) :
    Blocks text l (is ++ js) m' where
  toBounded := h.toBounded.append h'.toBounded
  blocks r hr hk := by
    rw [Item.regions_append h.account, List.mem_append] at hr
    rcases hr with hr | hr
    · have hstop := hstop.resolve_left fun hlacks => ne_mataBlock hlacks hr hk
      obtain ⟨b, bs, e, honline, hlies⟩ := h.blocks r hr hk
      exact ⟨b, bs, e, honline, hlies.append h.account h'.toBounded hstop⟩
    · obtain ⟨b, bs, e, honline, hlies⟩ := h'.blocks r hr hk
      exact ⟨b, bs, e, honline, hlies.after h.toBounded⟩

theorem lineBreak (h : (Reading.eat .newline .statement).leads l is m) : Blocks text l is m :=
  plain (.lineBreak h) (Reading.lacks_eat Kind.isStatement_of_mem_blocks _ _ h)

theorem after_plain (h : Bounded l is m) (hlacks : ∀ t ∈ Item.trees is, t.Lacks Kind.blocks)
    (h' : Blocks text m js m') : Blocks text l (is ++ js) m' := (plain h hlacks).append h' (.inl hlacks)

theorem node (h : Blocks text l is m) {kind : Kind} (hk : kind.isNode = true) (hne : kind ≠ .mataBlock) :
    Blocks text l [.node kind is] m where
  toBounded := h.toBounded.node hk
  blocks r hr hkind := by
    rw [Item.regions_node h.account (ne_whitespace_of_isNode hk), List.mem_cons] at hr
    rcases hr with rfl | hr
    · exact absurd hkind hne
    · obtain ⟨b, bs, e, honline, hlies⟩ := h.blocks r hr hkind
      exact ⟨b, bs, e, honline, hlies.node h.account hk⟩

/-- A program without its `end`, which is found at its keyword. -/
theorem openProgram (hl : l.IsWord) (h : Blocks text (l.next .statement) is m) :
    Blocks text l [.enclosed .programDefinition ([.token l .programKeyword] ++ is ++
      [.found ⟨.missingProgramEnd, l.ahead.span⟩])] m := by
  have hword : Bounded l [.token l .programKeyword] (l.next .statement) :=
    .silent (.word hl (by decide) _) rfl
  have hinside := hword.append h.toBounded
  refine ⟨hinside.givenUp h.account.offset_le (by decide) .missingProgramEnd, fun r hr hkind => ?_⟩
  rw [Item.regions_givenUp hinside.account (by decide), List.mem_cons, List.mem_cons] at hr
  rcases hr with rfl | rfl | hr
  · cases hkind
  · cases hkind
  · rw [Item.regions_append hword.account, List.mem_append, Item.regions_token l (by decide), List.mem_singleton] at hr
    rcases hr with rfl | hr
    · cases hkind
    · obtain ⟨b, bs, e, honline, hlies⟩ := h.blocks r hr hkind
      exact ⟨b, bs, e, honline, (hlies.after hword).givenUp hinside.account hlies.start (by decide) _⟩

theorem not_endsLine_of_mataLine (h : Reading.mataLine.leads l is m) : ¬ l.EndsLine := by
  obtain ⟨_, k, _, hcomments, ⟨_, _, _, ⟨hword, -⟩, -⟩, -⟩ := h
  cases hcomments with
  | done => exact hword.1.not_endsLine
  | more hs =>
    have hblock : l.kind = .blockComment := Classical.not_not.mp hs
    exact Reading.not_endsLine_of_kind (by decide) (by decide) l hblock

theorem bounded_mataBlock (h : mataBlock.leads l is m) : Bounded l is m := by
  have hderives := Reading.derives_mataBlock (p := fun _ => True) trivial h
  have hmoves := hderives.ahead_le (Reading.moves_mataBlock h)
  refine .of_derivation hderives fun f hf => ?_
  have hle : l.offset ≤ l.ahead.start := Nat.le_add_right ..
  have hle' : l.ahead.start ≤ l.ahead.stop := Nat.le_add_right ..
  obtain ⟨_, hcase⟩ := Reading.mataCase h
  rcases hcase.found f hf with hspan | ⟨hstart, hstop⟩
  · rw [hspan]
    exact ⟨hle, .inl (by rw [hspan]; exact hmoves)⟩
  · exact ⟨by omega, .inl hstop⟩

theorem line (h : Reading.mataLine.leads l is m) (hstands : l.Stands text) (hstart : l.StartsLine text) :
    Blocks text l is m := by
  have hline := h
  obtain ⟨cs, k, _, hcomments, ⟨bs, e, ts, ⟨hword, hblock⟩, htail, rfl⟩, rfl⟩ := h
  have hsilent := Reading.findings_of_comments hcomments hword.1.ne_eof
  have hfirst : Bounded l cs k := .silent (Reading.derives_comments trivial hcomments) hsilent
  refine ⟨hfirst.append ((bounded_mataBlock hblock).append (.endOfLine htail)), fun r hr _ => ?_⟩
  exact ⟨l, _, m, ⟨hline, hstands, hstart, hr⟩, Nat.le_refl _, fun hl => absurd hl (not_endsLine_of_mataLine hline),
    Nat.le_refl _, fun _ => rfl, List.Subset.refl _, [], [], by simp, by simp⟩

end Blocks

/-! ## Readings -/

namespace Reading

def KeepsBlocks (text : List Char) (line : Reading) : Prop :=
  ∀ ⦃l items m⦄, l.Ready text → line.leads l items m → Blocks text l items m ∧ m.Ready text

section
variable {text : List Char} {line : Reading}

theorem ready_endOfLine {l m : Lexer} {items : List Item} (hl : l.Stands text) (h : endOfLine.leads l items m) :
    m.Ready text := by
  obtain ⟨is, k, js, hrest, hk, hbreak, rfl⟩ := endOfLine_cases h
  have hstands := (((trailingComments.seq remnant).account hrest).stands hl).1
  rcases hbreak with ⟨hnewline, -, -, rfl⟩ | ⟨-, -, rfl⟩
  · exact ⟨hstands.next _, .inl (Lexer.startsLine_next hstands hnewline _)⟩
  · exact ⟨hstands, .inr hk⟩

theorem KeepsBlocks.many (h : line.KeepsBlocks text) {stops : Lexer → Prop}
    (hs : ∀ l : Lexer, l.kind = .eof → stops l) : (many stops line).KeepsBlocks text := by
  intro l items m hl hmany
  induction hmany with
  | done => exact ⟨.plain (.silent (.nil _ _) rfl) fun t ht => (by cases ht), hl⟩
  | more _ first rest ih =>
    obtain ⟨hfirst, hready⟩ := h hl first
    obtain ⟨hrest, hready⟩ := ih hready
    exact ⟨hfirst.append hrest (.inr fun he => stopsAtEnd_many hs he rest), hready⟩

/-- Programs and mata blocks are the only statements that hold blocks. -/
theorem statement_cases {l m : Lexer} {items : List Item} (h : (statement line).leads l items m) :
    Derivation .line l items m ∧ (∀ t ∈ Item.trees items, t.Lacks Kind.blocks) ∨
      (programDefinition line).leads l items m ∨ l.IsWordOf ["mata"] ∧ mataBlock.leads l items m := by
  have hkinds := Kind.isStatement_of_mem_blocks
  rcases h with ⟨hcomment, h⟩ | ⟨-, ⟨hbrace, h⟩ | ⟨-, ⟨-, h⟩ | ⟨-, ⟨hword, h⟩ | ⟨-, ⟨-, h⟩ | ⟨-, ⟨-, h⟩ |
    ⟨-, ⟨-, h⟩ | ⟨-, h⟩⟩⟩⟩⟩⟩⟩
  · exact .inl ⟨derives_comment hcomment h, lacks_comment hkinds (by decide) h⟩
  · exact .inl ⟨derives_blockClose hbrace h, lacks_blockClose hkinds (by decide) h⟩
  · exact .inr (.inl h)
  · exact .inr (.inr ⟨hword, h⟩)
  · exact .inl ⟨derives_macroDefinition (p := fun _ => True) trivial h, lacks_macroDefinition hkinds (by decide) h⟩
  · exact .inl ⟨derives_temporaryDefinition (p := fun _ => True) trivial h,
      lacks_temporaryDefinition hkinds (by decide) h⟩
  · exact .inl ⟨derives_strayEnd (p := fun _ => True) trivial h, lacks_strayEnd hkinds h⟩
  · exact .inl ⟨derives_command (p := fun _ => True) trivial h, lacks_command hkinds (by decide) h⟩

variable (h : line.KeepsBlocks text)
include h

theorem blocks_of_opening {l m : Lexer} {items : List Item} (hl : l.Stands text)
    (hR : (programHead.seq (many ProgramEnds line)).leads l items m) :
    ∃ rest, l.IsWord ∧ items = [.token l .programKeyword] ++ rest ∧ Blocks text (l.next .statement) rest m := by
  have hkinds := Kind.isStatement_of_mem_blocks
  have hhead := hR
  obtain ⟨_, k, body, ⟨_, _, tail, ⟨hword, rfl, rfl⟩, htail, rfl⟩, hmany, rfl⟩ := hR
  have hlacks : ((either (·.IsWordOf ["define"]) (word .defineKeyword .statement) skip).seq
      ((name .expectedProgramName).seq arguments)).Lacks Kind.blocks :=
    ((lacks_word hkinds _ _).either lacks_skip _).seq ((lacks_name hkinds _).seq (lacks_arguments hkinds))
  have hends : k.EndsLine := by
    obtain ⟨_, _, _, -, ⟨_, _, _, -, harguments, -⟩, -⟩ := htail
    exact stops_of_many harguments
  have hstands := ((Reading.account _ htail).stands (hl.next .statement)).1
  obtain ⟨hlines, -⟩ := h.many (fun _ he => .inl he) ⟨hstands, .inr hends⟩ hmany
  exact ⟨tail ++ body, hword, List.append_assoc .., .after_plain (.plain (derives_programName rfl htail) (hlacks htail) hends)
    (hlacks htail) hlines⟩

theorem blocks_programDefinition {l m : Lexer} {items : List Item} (hl : l.Stands text)
    (hR : (programDefinition line).leads l items m) : l.IsWord ∧ Blocks text l items m := by
  have hkinds := Kind.isStatement_of_mem_blocks
  rcases hR with ⟨is, ⟨hR, -⟩, -, rfl⟩ | ⟨_, ⟨is, b, _, ⟨hR, hb⟩, ⟨_, _, comments, ⟨hword, rfl, rfl⟩, hcomments, rfl⟩,
    rfl⟩, rfl⟩
  · obtain ⟨rest, hl, rfl, hrest⟩ := blocks_of_opening h hl hR
    exact ⟨hl, .openProgram hl hrest⟩
  · obtain ⟨rest, hl, rfl, hrest⟩ := blocks_of_opening h hl hR
    have hkeyword : Bounded l [.token l .programKeyword] (l.next .statement) := .silent (.word hl (by decide) _) rfl
    have hend : Bounded b [.token b .endKeyword] (b.next .statement) := .silent (.word hword (by decide) _) rfl
    have htrailing : Bounded (b.next .statement) comments m :=
      .of_derivation (derives_trailingComments (p := fun _ => True) trivial hcomments) fun f hf =>
        ⟨(stop_of_trailingComments hcomments f hf).1, .inl (stop_of_trailingComments hcomments f hf).2⟩
    have hleaf : ∀ (b : Lexer) {kind : Kind}, kind.isNode = false →
        ∀ t ∈ Item.trees [.token b kind], t.Lacks Kind.blocks := by
      intro b kind hk t ht
      rw [Item.trees_token, List.mem_singleton] at ht
      exact ht ▸ lacks_leaf hkinds hk _
    have hclose : Blocks text b ([.token b .endKeyword] ++ comments) m :=
      .after_plain hend (hleaf b rfl) (.plain htrailing (lacks_trailingComments hkinds hcomments))
    have hinside : Blocks text l ([.token l .programKeyword] ++ rest) b := .after_plain hkeyword (hleaf l rfl) hrest
    exact ⟨hl, (hinside.append hclose (.inr fun he => absurd he hb)).node (by decide) (by decide)⟩

theorem keepsBlocks_fullLine : (fullLine line).KeepsBlocks text := by
  intro l items m hl hR
  obtain ⟨cs, k, _, hcomments, ⟨ss, e, ts, hstatement, hend, rfl⟩, rfl⟩ := hR
  have hcomments' := derives_comments trivial hcomments
  have hk := (((many (·.kind ≠ .blockComment) comment).account hcomments).stands hl.1).1
  have he := ((Reading.account _ hstatement).stands hk).1
  refine ⟨?_, ready_endOfLine he hend⟩
  -- without a block the line is bounded as a whole: a name that is missing may be found at its line break
  have hplain : Derivation .line k ss e → (∀ t ∈ Item.trees ss, t.Lacks Kind.blocks) →
      Blocks text l (cs ++ (ss ++ ts)) m := by
    intro hderivation hlacks
    obtain ⟨xs, k', js, hrest, hk', hbreak, rfl⟩ := endOfLine_cases hend
    have hderives : Derivation .line l (cs ++ ss ++ xs) k' :=
      .append (.append hcomments' hderivation) (derives_lineRest trivial hrest)
    have hlacks : ∀ t ∈ Item.trees (cs ++ ss ++ xs), t.Lacks Kind.blocks :=
      Item.forall_trees_append (Item.forall_trees_append (lacks_comments hcomments) hlacks) (lacks_lineRest hrest)
    rw [← List.append_assoc, ← List.append_assoc]
    exact .after_plain (.plain hderives hlacks hk') hlacks (.lineBreak hbreak)
  rcases hstatement with ⟨-, rfl, rfl⟩ | ⟨-, hstatement⟩
  · exact hplain (.nil _ _) fun t ht => by cases ht
  · rcases statement_cases hstatement with ⟨hderivation, hlacks⟩ | hprogram | ⟨hword, hmata⟩
    · exact hplain hderivation hlacks
    · obtain ⟨hword, hblocks⟩ := blocks_programDefinition h hk hprogram
      have hsilent := findings_of_comments hcomments hword.ne_eof
      exact .after_plain (.silent hcomments' hsilent) (lacks_comments hcomments)
        (hblocks.append (.plain (.endOfLine hend) (lacks_endOfLine hend)) (.inr fun he => stopsAtEnd_endOfLine he hend))
    · have hline : mataLine.leads l (cs ++ (ss ++ ts)) m :=
        ⟨cs, k, _, hcomments, ⟨ss, e, ts, ⟨hword, hmata⟩, hend, rfl⟩, rfl⟩
      exact .line hline hl.1 (hl.2.resolve_right (Blocks.not_endsLine_of_mataLine hline))

theorem keepsBlocks_lineWith : (lineWith line).KeepsBlocks text := by
  intro l items m hl hR
  rcases hR.2 with ⟨hnewline, htake⟩ | ⟨-, hline⟩
  · have hbreak : (eat .newline .statement).leads l items m := .inl ⟨hnewline, htake⟩
    obtain ⟨-, rfl, rfl⟩ := htake
    exact ⟨.lineBreak hbreak, hl.1.next _, .inl (Lexer.startsLine_next hl.1 hnewline _)⟩
  · exact keepsBlocks_fullLine h hl hline

end

theorem keepsBlocks_line (text : List Char) : ∀ depth : Nat, (line depth).KeepsBlocks text
  | 0 => fun _ _ _ _ h => h.elim
  | depth + 1 => keepsBlocks_lineWith (keepsBlocks_line text depth)

theorem keepsBlocks_lines (text : List Char) (depth : Nat) : (lines depth).KeepsBlocks text :=
  (keepsBlocks_line text depth).many fun _ h => h

end Reading

end Dofile
