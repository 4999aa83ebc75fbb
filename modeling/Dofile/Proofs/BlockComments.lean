import Dofile.Proofs.Bounds
import Dofile.Proofs.StarComments
import Dofile.Proofs.Tokenizer

/-!
# Block comments

A block comment ends with the first star and slash behind its opener, whose own star is none of them, or with
the text. Which of the two it is can be told from its last characters. The grammar comes upon comments in many
places, but whichever it is, one without its end is alone in a problem node and found once, where it stands.
-/

namespace Dofile

/-- The places of a text behind some of its beginning are those of the rest. -/
theorem closerAt_append (front rest : List Char) (offset : Nat) :
    CloserAt (front ++ rest) offset ∧ byteSize front ≤ offset ↔
      ∃ i, CloserAt rest i ∧ offset = byteSize front + i := by
  constructor
  · rintro ⟨⟨before, after, htext, rfl⟩, hle⟩
    obtain ⟨more, rfl, hrest⟩ := exists_between htext hle
    exact ⟨byteSize more, ⟨more, after, hrest, rfl⟩, byteSize_append ..⟩
  · rintro ⟨_, ⟨before, after, rfl, rfl⟩, rfl⟩
    exact ⟨⟨front ++ before, after, (List.append_assoc ..).symm, byteSize_append ..⟩, Nat.le_add_right ..⟩

theorem closerAt_of_suffix {text : List Char} (h : ['*', '/'] <:+ text) : ∃ i, CloserAt text i := by
  obtain ⟨before, rfl⟩ := h
  exact ⟨byteSize before, before, [], rfl, rfl⟩

namespace Lexeme

/-- A comment ends in a closer if it holds one, apart from the star of its opener. -/
theorem isTerminated_iff_closerAt (tail : List Char) :
    isTerminatedBlockComment ('/' :: '*' :: blockCommentTail tail) = true ↔
      ∃ i, CloserAt ('/' :: '*' :: blockCommentTail tail) i ∧ 2 ≤ i := by
  have hshift := closerAt_append ['/', '*'] (blockCommentTail tail)
  rw [isTerminatedBlockComment_cons]
  constructor
  · intro hsuffix
    obtain ⟨i, hi⟩ := closerAt_of_suffix hsuffix
    exact ⟨_, (hshift _).mpr ⟨i, hi, rfl⟩⟩
  · rintro ⟨i, hi⟩
    obtain ⟨j, hj, -⟩ := (hshift i).mp hi
    rcases blockCommentTail_ends tail with ⟨inner, -, -, htail, -⟩ | ⟨hall, hnone⟩
    · exact htail ▸ List.suffix_append inner _
    · exact absurd (hall ▸ hj) (hnone j)

end Lexeme

namespace Lexer

variable {text : List Char} {l : Lexer}

theorem kind_of_opener (hmode : l.mode = .statement) (h : ['/', '*'] <+: l.ahead.text) : l.kind = .blockComment := by
  obtain ⟨word, hword⟩ := h
  have hbody := l.text_append_after
  rw [← hword] at hbody
  rw [kind_eq, hmode, ← hbody]
  rfl

/-- The closers of a text behind the opener of a comment. -/
theorem Stands.closerAt_iff (h : l.Stands text) {tail : List Char} (hbody : l.body = '/' :: '*' :: tail)
    (offset : Nat) : CloserAt text offset ∧ l.ahead.start + 2 ≤ offset ↔
      ∃ i, CloserAt tail i ∧ offset = l.ahead.start + 2 + i := by
  obtain ⟨before, hcut, -⟩ := h.cut_body
  obtain ⟨htext, hstart⟩ := cutBytes_eq_some hcut
  have hsize : byteSize (before ++ ['/', '*']) = l.ahead.start + 2 := by
    rw [byteSize_append, hstart]
    rfl
  have hfront : before ++ ['/', '*'] ++ tail = text := by rw [← htext, hbody, List.append_assoc]; rfl
  rw [← hsize, ← hfront]
  exact closerAt_append (before ++ ['/', '*']) tail offset

/-- Where a block comment ends. -/
theorem Stands.blockComment_ends (h : l.Stands text) (hk : l.kind = .blockComment) :
    (∃ i, CloserAt text i ∧ l.ahead.start + 2 ≤ i ∧ (∀ j, CloserAt text j → l.ahead.start + 2 ≤ j → i ≤ j) ∧
        l.ahead.stop = i + 2 ∧ Lexeme.isTerminatedBlockComment l.ahead.text = true) ∨
      (∀ i, CloserAt text i → i < l.ahead.start + 2) ∧
        l.ahead.stop = byteSize text ∧ Lexeme.isTerminatedBlockComment l.ahead.text = false := by
  obtain ⟨-, tail, hbody, htext⟩ := text_of_blockComment hk
  rcases Lexeme.blockCommentTail_ends tail with ⟨inner, after, htail, hcomment, hfirst⟩ | ⟨hall, hnone⟩
  · refine .inl ⟨l.ahead.start + 2 + byteSize inner, ?_⟩
    obtain ⟨hat, hle⟩ := (h.closerAt_iff hbody _).mpr ⟨byteSize inner, ⟨inner, after, htail, rfl⟩, rfl⟩
    refine ⟨hat, hle, fun j hj hjle => ?_, ?_, ?_⟩
    · obtain ⟨i, hi, rfl⟩ := (h.closerAt_iff hbody j).mp ⟨hj, hjle⟩
      exact Nat.add_le_add_left (hfirst i hi) _
    · have hsize : byteSize l.ahead.text = 2 + (byteSize inner + 2) := by
        rw [htext, hcomment, byteSize_cons, byteSize_cons, byteSize_append, ← Nat.add_assoc]
        rfl
      rw [Token.stop, hsize]
      omega
    · rw [htext, Lexeme.isTerminatedBlockComment_cons, hcomment]
      exact List.suffix_append inner _
  · have hopen : Lexeme.isTerminatedBlockComment l.ahead.text = false := by
      rw [Bool.eq_false_iff, Ne, htext, Lexeme.isTerminatedBlockComment_cons, hall]
      exact fun hsuffix => (closerAt_of_suffix hsuffix).elim hnone
    refine .inr ⟨fun i hi => ?_, ?_, hopen⟩
    · by_contra hle
      obtain ⟨j, hj, -⟩ := (h.closerAt_iff hbody i).mp ⟨hi, Nat.not_lt.mp hle⟩
      exact hnone j hj
    · rw [h.size_eq, after_of_openComment ⟨hk, hopen⟩]
      rfl

end Lexer

/-! ## What is found of comments -/

namespace Tree

def isOpenComment (t : Tree) : Bool := t.kind == .blockComment && !Lexeme.isTerminatedBlockComment t.text

theorem kind_of_openComment {t : Tree} (h : t.isOpenComment = true) : t.kind = .blockComment := by
  rw [isOpenComment, Bool.and_eq_true] at h
  exact beq_iff_eq.mp h.1

theorem not_openComment {t : Tree} (h : t.kind ≠ .blockComment) : t.isOpenComment = false :=
  Bool.eq_false_iff.mpr fun hopen => h (kind_of_openComment hopen)

theorem isOpenComment_iff {t : Tree} (h : t.kind = .blockComment) :
    t.isOpenComment = true ↔ Lexeme.isTerminatedBlockComment t.text = false := by
  simp [isOpenComment, h]

end Tree

def Item.isOpenComment (t : Lexer × Kind) : Bool := (Tree.leaf t.2 t.1.ahead.text).isOpenComment

def Finding.isOpenComment (f : Finding) : Bool := f.problem == .unterminatedBlockComment

/-- Whether the block comments without their ends among some items are found there, each once and in their order. -/
def Item.TellComments (items : List Item) : Prop :=
  ((takenAll items).filter isOpenComment).map (·.1.ahead.span) =
    ((findingsAll items).filter Finding.isOpenComment).map Finding.span

namespace Item.TellComments

variable {is js : List Item}

theorem append (h : TellComments is) (h' : TellComments js) : TellComments (is ++ js) := by
  unfold TellComments at *
  rw [takenAll_append, findingsAll_append, List.filter_append, List.filter_append, List.map_append, List.map_append,
    h, h']

theorem token {l : Lexer} {kind : Kind} (h : isOpenComment (l, kind) = false) : TellComments [.token l kind] := by
  simp [TellComments, takenAll, taken, findingsAll, findings, h]

theorem found {f : Finding} (h : f.problem ≠ .unterminatedBlockComment) : TellComments [.found f] := by
  simp [TellComments, takenAll, taken, findingsAll, findings, Finding.isOpenComment, h]

theorem node (h : TellComments is) (kind : Kind) : TellComments [.node kind is] := by
  simpa [TellComments, takenAll, taken, findingsAll, findings] using h

theorem enclosed (h : TellComments is) (kind : Kind) : TellComments [.enclosed kind is] := by
  simpa [TellComments, takenAll, taken, findingsAll, findings] using h

/-- A token that is no block comment. -/
theorem item {l : Lexer} (h : l.kind ≠ .blockComment) : TellComments [l.item] := token (Tree.not_openComment h)

theorem openComment {l : Lexer} (h : Reading.AtOpenComment l) :
    TellComments [.found ⟨.unterminatedBlockComment, l.ahead.span⟩, l.item] := by
  have htaken : isOpenComment (l, l.kind) = true := (Tree.isOpenComment_iff (t := .leaf _ _) h.1).mpr h.2
  simp [TellComments, takenAll, taken, findingsAll, findings, Lexer.item, htaken, Finding.isOpenComment]

end Item.TellComments

/-- Strings and macro references have nothing to do with comments. -/
theorem Construct.ne_comment (q : Construct) : q.opener ≠ .blockComment ∧ q.closer ≠ .blockComment ∧
    .blockComment ∉ q.tokens ∧ q.problem ≠ .unterminatedBlockComment := by
  rcases q with _ | ⟨family, _⟩
  · decide
  · cases family <;> simp [opener, closer, tokens, problem, Family.opener, Family.closer, Family.problem]

theorem Setting.Takes.not_openComment {outer : Setting} {l : Lexer} (h : outer.Takes l) :
    Item.isOpenComment (l, l.kind) = false := by
  cases outer with
  | line =>
    refine Bool.eq_false_iff.mpr fun hopen => h.2 ?_
    have hk : l.kind = .blockComment := Tree.kind_of_openComment hopen
    exact ⟨hk, (Tree.isOpenComment_iff (t := .leaf _ _) hk).mp hopen⟩
  | within q => exact Tree.not_openComment fun hk => q.ne_comment.2.2.1 (hk ▸ h)

namespace Derivation

open Item (TellComments)
open Reading (bracedName)

variable {outer : Setting} {l l' : Lexer} {items : List Item}

theorem tellComments_bracedName {m : Lexer} {is : List Item} (h : bracedName.leads l is m) : TellComments is := by
  rcases h with ⟨hk, -, rfl, -⟩ | ⟨-, ⟨-, rfl, -⟩ | ⟨-, rfl, -⟩⟩
  · exact .item (by rw [hk]; decide)
  · exact .found nofun
  · rfl

/-- Wherever a comment is read, it is found to have no end if it has none. -/
theorem tellComments (h : Derivation outer l items l') : TellComments items := by
  have hitem : ∀ {l : Lexer} {kind : Kind}, l.kind = kind → kind ≠ .blockComment → TellComments [l.item] :=
    fun hl hk => .item (hl ▸ hk)
  have hbraces : ∀ {l b m : Lexer} {is : List Item}, l.kind = .dollar → b.kind = .leftBrace →
      bracedName.leads (b.next .globalMacro) is m → TellComments (l.item :: b.item :: is) := fun hl hbrace hname =>
    (hitem hl (by decide)).append ((hitem hbrace (by decide)).append (tellComments_bracedName hname))
  induction h with
  | nil => rfl
  | append _ _ ih ih' => exact ih.append ih'
  | token h => exact .token h.not_openComment
  | word _ hk =>
    exact .token (Tree.not_openComment ((show ∀ k ∈ Kind.wordLabels, k ≠ .blockComment by decide) _ hk))
  | missingName l hp =>
    exact .found ((show ∀ p ∈ Problem.statementNames, p ≠ .unterminatedBlockComment by decide) _ hp)
  | node _ _ _ _ ih => exact ih.node _
  | problem hp _ _ ih =>
    have hproblem := (show ∀ p ∈ Problem.ofLine, p ≠ .unterminatedBlockComment by decide) _ hp
    exact ((TellComments.found hproblem).append ih).node _
  | unknown h => exact ((TellComments.found (by nofun)).append (hitem h (by decide))).node _
  | openComment h => exact (TellComments.openComment h).node _
  | openBlock hk _ _ _ _ ih =>
    have hproblem := (show ∀ b ∈ Problem.openBlocks, b.2 ≠ .unterminatedBlockComment by decide) _ hk
    exact (ih.append (.found hproblem)).enclosed _
  | plainMacro hl _ hname => exact ((hitem hl (by decide)).append (hitem hname (by decide))).node _
  | bracedMacro hl _ hbrace hname hm => exact ((hbraces hl hbrace hname).append (hitem hm (by decide))).node _
  | openMacro hl _ hbrace hname _ => exact ((hbraces hl hbrace hname).append (.found (by nofun))).enclosed _
  | @closed _ q _ _ _ _ hl _ hm ih =>
    exact (((hitem hl q.ne_comment.1).append ih).append (hitem hm q.ne_comment.2.1)).node _
  | @unclosed _ q _ _ _ _ hl _ _ ih =>
    exact (((hitem hl q.ne_comment.1).append ih).append (.found q.ne_comment.2.2.2)).enclosed _

end Derivation

/-! ## The whole text -/

/-- What is found of a comment is at a problem node that holds nothing else. -/
theorem Finding.Tells.of_comment {text : List Char} {f : Finding} {r : Tree × Span} (h : f.Tells text r)
    (hproblem : f.problem = .unterminatedBlockComment) :
    (∃ word, r.1 = .node .error [.leaf .blockComment word]) ∧ r.2 = f.span := by
  cases h with
  | @construct q => exact absurd hproblem q.ne_comment.2.2.2
  | comment => exact ⟨⟨_, rfl⟩, rfl⟩
  | reference | mata => cases hproblem

namespace Place

/-- Of places that follow each other, only one can end where the text does. -/
theorem eq_singleton_of_stop {stop : Nat} {ps : List Place} (h : ps.Pairwise fun a b => a.stop ≤ b.start)
    (hends : ∀ p ∈ ps, p.start < p.stop ∧ p.stop = stop) {p : Place} (hp : p ∈ ps) : ps = [p] := by
  match ps, hp with
  | [q], hp => rw [List.mem_singleton.mp hp]
  | a :: b :: ps, _ =>
    have hle : a.stop ≤ b.start := List.rel_of_pairwise_cons h List.mem_cons_self
    have ha := (hends a (by simp)).2
    have hb := hends b (by simp)
    omega

end Place

namespace Parse

variable {text : List Char}

section
variable {items : List Item} {l : Lexer} (h : (Reading.lines text.length).leads (.ofText text) items l)
  (hsize : byteSize text ≤ maxOffset)
include h hsize

/-- The block comments without their ends are told of, each where it stands. -/
theorem spans_openComment : ((ofText text).root.leaves.filter (·.tree.isOpenComment)).map Place.span =
    ((ofText text).diagnostics.filter (·.message == "unterminated block comment")).map Diagnostic.span := by
  have hsolid : ∀ t : Tree, t.isOpenComment = (t.isOpenComment && t.kind != .whitespace) := by
    intro t
    by_cases hk : t.kind = .blockComment
    · simp [hk]
    · rw [Tree.not_openComment hk, Bool.false_and]
  calc ((ofText text).root.leaves.filter (·.tree.isOpenComment)).map Place.span
    _ = ((((ofText text).root.leaves.map Place.region).filter (·.1.kind != .whitespace)).filter
        (·.1.isOpenComment)).map Prod.snd := by
      rw [List.filter_filter, List.filter_map, List.map_map]
      exact congrArg (List.map Place.span) (List.filter_congr fun p _ => hsolid p.tree)
    _ = (((Item.takenAll items).map fun t => (Tree.leaf t.2 t.1.ahead.text, t.1.ahead.span)).filter
        (·.1.isOpenComment)).map Prod.snd := by
      rw [regions_leaves h hsize, List.filter_append, List.map_append]
      exact List.append_nil _
    _ = ((Item.takenAll items).filter Item.isOpenComment).map (·.1.ahead.span) := by
      rw [List.filter_map, List.map_map]
      rfl
    _ = ((Item.findingsAll items).filter Finding.isOpenComment).map Finding.span :=
      (Reading.derives_lines _ trivial h).tellComments
    _ = _ := (spans_of_problem h hsize .unterminatedBlockComment).symm

/-- A leaf that is a block comment without its end goes on to the end of the text. -/
theorem openComment_leaf {leaf : Place} (hleaf : leaf ∈ (ofText text).root.leaves) (hk : leaf.kind = .blockComment) :
    (leaf.tree.isOpenComment = true ↔ ∀ i, CloserAt leaf.text i → i < 2) ∧
      (leaf.tree.isOpenComment = true → leaf.start < leaf.stop ∧ leaf.stop = byteSize text) := by
  obtain ⟨t, hstands, hkind, hword, hspan⟩ := exists_lexed h hsize hleaf (by rw [hk]; decide)
  have hlexer : t.kind = .blockComment := hkind.trans hk
  obtain ⟨-, tail, -, htext⟩ := Lexer.text_of_blockComment hlexer
  have hopen : leaf.tree.isOpenComment = true ↔ Lexeme.isTerminatedBlockComment t.ahead.text = false :=
    hword ▸ Tree.isOpenComment_iff hk
  have hstart : leaf.start = t.ahead.start := congrArg Span.start hspan
  have hstop : leaf.stop = t.ahead.stop := congrArg Span.stop hspan
  constructor
  · rw [hopen, Bool.eq_false_iff, Ne, hword, htext, Lexeme.isTerminated_iff_closerAt, not_exists]
    exact forall_congr' fun i => by rw [not_and, Nat.not_le]
  · intro hleafOpen
    rw [hstart, hstop]
    refine ⟨Lexer.start_lt_stop (by rw [hlexer]; decide), ?_⟩
    rw [hstands.size_eq, Lexer.after_of_openComment ⟨hlexer, hopen.mp hleafOpen⟩]
    rfl

end

variable (hsize : byteSize text ≤ maxOffset) {leaf : Place} (hleaf : leaf ∈ (ofText text).root.leaves)
include hsize hleaf

/-- A leaf where a comment is found to have no end is alone in a problem node. -/
theorem exists_error_of_comment (hfound : leaf.span ∈
    ((ofText text).diagnostics.filter (·.message == "unterminated block comment")).map Diagnostic.span) :
    ∃ e ∈ (ofText text).root.nodes, e.kind = .error ∧ e.children = [leaf] ∧ e.span = leaf.span := by
  obtain ⟨d, hd, hspan⟩ := List.mem_map.mp hfound
  obtain ⟨hd, hmessage⟩ := List.mem_filter.mp hd
  obtain ⟨f, hf, hproblem, hat⟩ := exists_finding hd .unterminatedBlockComment (beq_iff_eq.mp hmessage)
  obtain ⟨r, hr, htells⟩ := (reported hsize).told f hf (by rw [hproblem]; rfl)
  obtain ⟨e, he, rfl⟩ := List.mem_map.mp (List.mem_filter.mp hr).1
  obtain ⟨⟨word, htree⟩, hregion⟩ := htells.of_comment hproblem
  have htree : e.tree = .node .error [.leaf .blockComment word] := htree
  have hsame : e.span = leaf.span := hregion.trans (hat.trans hspan)
  obtain ⟨first, hfirst, hword, hstart, hfirstLeaf⟩ := Place.first_of_leaf (congrArg Tree.children htree)
  have hmem : first ∈ (ofText text).root.leaves :=
    (Place.leaves_isInfix he).subset (List.mem_of_mem_head? hfirstLeaf)
  obtain rfl : first = leaf :=
    (inOrder_leaves text hsize).eq_of_start hmem hleaf (hstart.trans (congrArg Span.start hsame))
  refine ⟨e, Place.mem_nodes_iff.mpr ⟨he, by rw [Place.isLeaf, htree]; rfl⟩, congrArg Tree.kind htree, ?_, hsame⟩
  exact Place.children_eq_singleton (List.mem_of_getElem? hfirst) (by rw [htree, hword]; rfl)

/-- At most one comment has no end. -/
theorem openComment_unique (hopen : leaf.tree.isOpenComment = true) :
    (ofText text).root.leaves.filter (·.tree.isOpenComment) = [leaf] := by
  obtain ⟨items, l, h⟩ := Reading.exists_lines text
  have hends : ∀ p ∈ (ofText text).root.leaves.filter (·.tree.isOpenComment),
      p.start < p.stop ∧ p.stop = byteSize text := by
    intro p hp
    obtain ⟨hp, hopen⟩ := List.mem_filter.mp hp
    exact (openComment_leaf h hsize hp (Tree.kind_of_openComment hopen)).2 hopen
  exact Place.eq_singleton_of_stop ((Place.pairwise_leaves _).sublist List.filter_sublist) hends
    (List.mem_filter.mpr ⟨hleaf, hopen⟩)

omit hsize hleaf

/-- Whichever token of statement text begins like a block comment ends behind the first star and slash whose star
comes behind its opener, or with the text if there are none, and its last characters tell which. In a parse, a
comment without its end goes on to the end of the text, is all that a problem node holds and is found there. It is
the only one, and nothing else is found to be one. -/
theorem block_comments_end (text : List Char) :
    (∀ steps : List Lexer.Step,
      let t := ((Lexer.run steps (.ofText text)).2.relex .statement).ahead
      ['/', '*'] <+: t.text → t.kind = .blockComment ∧
        ((∃ i, CloserAt text i ∧ t.start + 2 ≤ i ∧ (∀ j, CloserAt text j → t.start + 2 ≤ j → i ≤ j) ∧
            t.stop = i + 2 ∧ Lexeme.isTerminatedBlockComment t.text = true) ∨
          (∀ i, CloserAt text i → i < t.start + 2) ∧
            t.stop = byteSize text ∧ Lexeme.isTerminatedBlockComment t.text = false)) ∧
    (byteSize text ≤ maxOffset →
      let p := ofText text
      ∀ leaf ∈ p.root.leaves, leaf.kind = .blockComment → (∀ i, CloserAt leaf.text i → i < 2) →
        leaf.stop = byteSize text ∧
        (∃ e ∈ p.root.nodes, e.kind = .error ∧ e.children = [leaf] ∧ e.span = leaf.span) ∧
        (p.diagnostics.filter (·.message == "unterminated block comment")).map Diagnostic.span = [leaf.span] ∧
        ∀ other ∈ p.root.leaves, other.kind = .blockComment → (∀ i, CloserAt other.text i → i < 2) →
          other = leaf) := by
  refine ⟨fun steps => ?_, fun hsize => ?_⟩
  · intro t hopener
    have hstands : ((Lexer.run steps (.ofText text)).2.relex .statement).Stands text :=
      (Lexer.run_stands steps (Lexer.stands_ofText text)).1.relex .statement
    have hk := Lexer.kind_of_opener rfl hopener
    exact ⟨hk, hstands.blockComment_ends hk⟩
  · intro p leaf hleaf hk hnone
    obtain ⟨items, l, h⟩ := Reading.exists_lines text
    obtain ⟨hiff, hends⟩ := openComment_leaf h hsize hleaf hk
    have hunique := openComment_unique hsize hleaf (hiff.mpr hnone)
    have hspans := spans_openComment h hsize
    rw [hunique] at hspans
    refine ⟨(hends (hiff.mpr hnone)).2, ?_, hspans.symm, fun other hother hkind hno => ?_⟩
    · exact exists_error_of_comment hsize hleaf (hspans ▸ List.mem_singleton_self _)
    · have hopen := (openComment_leaf h hsize hother hkind).1.mpr hno
      have hmem : other ∈ p.root.leaves.filter (·.tree.isOpenComment) := List.mem_filter.mpr ⟨hother, hopen⟩
      rw [hunique] at hmem
      exact List.mem_singleton.mp hmem

/-- The second star of the first comment is not that of its opener, and the second comment is cut off within what
would be its end. -/
theorem block_comments_end_cut :
    let text := "a /*/ b */ /*/ *".toList
    let t := ((Lexer.run [.next .statement] (.ofText text)).2.relex .statement).ahead
    let p := ofText text
    (['/', '*'] <+: t.text ∧ t.kind = .blockComment ∧
      ((∃ i, CloserAt text i ∧ t.start + 2 ≤ i ∧ (∀ j, CloserAt text j → t.start + 2 ≤ j → i ≤ j) ∧
          t.stop = i + 2 ∧ Lexeme.isTerminatedBlockComment t.text = true) ∨
        (∀ i, CloserAt text i → i < t.start + 2) ∧
          t.stop = byteSize text ∧ Lexeme.isTerminatedBlockComment t.text = false)) ∧
    byteSize text ≤ maxOffset ∧
      (∃ leaf ∈ p.root.leaves, leaf.kind = .blockComment ∧ leaf.span = ⟨11, 16⟩) ∧
      ∀ leaf ∈ p.root.leaves, leaf.kind = .blockComment → (∀ i, CloserAt leaf.text i → i < 2) →
        leaf.stop = byteSize text ∧
        (∃ e ∈ p.root.nodes, e.kind = .error ∧ e.children = [leaf] ∧ e.span = leaf.span) ∧
        (p.diagnostics.filter (·.message == "unterminated block comment")).map Diagnostic.span = [leaf.span] ∧
        ∀ other ∈ p.root.leaves, other.kind = .blockComment → (∀ i, CloserAt other.text i → i < 2) →
          other = leaf := by
  have hopener : ['/', '*'] <+:
      ((Lexer.run [.next .statement] (.ofText "a /*/ b */ /*/ *".toList)).2.relex .statement).ahead.text := by decide
  have hsize : byteSize "a /*/ b */ /*/ *".toList ≤ maxOffset := by decide
  obtain ⟨htokens, hleaves⟩ := block_comments_end "a /*/ b */ /*/ *".toList
  exact ⟨⟨hopener, htokens _ hopener⟩, hsize, by decide +kernel, hleaves hsize⟩

end Parse

end Dofile
