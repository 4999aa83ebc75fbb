import Dofile.Proofs.Breaks
import Dofile.Proofs.DerivationRules
import Dofile.Proofs.Lacks

/-!
# Where problems are found

What is found while some text is read lies between where it begins and where it ends. Only a name that
is missing is found at the token that comes next.
-/

namespace Dofile

open Reading (start_le_of_braces mode_of_braces)

def Kind.blocks : List Kind := [.programDefinition, .mataBlock]

theorem Kind.isStatement_of_mem_blocks : ∀ kind ∈ blocks, Typed.isStatement kind = true := by decide

theorem Script.tree_mem_forest {ss : List Script} : ∀ t ∈ ss.map tree, t ∈ forest ss := by
  induction ss with
  | nil => simp
  | cons s ss ih =>
    intro t ht
    rcases List.mem_cons.mp ht with rfl | ht
    · exact List.mem_append_right _ List.mem_cons_self
    · exact List.mem_append_right _ (List.mem_cons_of_mem _ (ih t ht))

theorem Tree.Lacks.inside {kinds : List Kind} {kind : Kind} {items : List Item}
    (h : (Tree.node kind (Script.waiting (Item.scriptsAll items))).Lacks kinds) :
    ∀ t ∈ Item.trees items, t.Lacks kinds := by
  intro t ht
  refine (Tree.allOf_iff _).mp h.2 t ?_
  cases hs : Item.scriptsAll items with
  | nil =>
    rw [Item.trees, hs] at ht
    cases ht
  | cons s ss =>
    rw [Item.trees, hs] at ht
    rcases List.mem_cons.mp ht with rfl | ht
    · exact List.mem_cons_self
    · exact List.mem_cons_of_mem _ (Script.tree_mem_forest t ht)

/-- How far what is found in a setting can reach. -/
def Setting.reach : Setting → Lexer → Nat
  | line, m => m.ahead.stop
  | within _, m => m.offset

theorem Setting.offset_le_reach (outer : Setting) (m : Lexer) : m.offset ≤ outer.reach m := by
  cases outer with
  | line => exact Nat.le_trans (Nat.le_add_right ..) (Nat.le_add_right ..)
  | within => exact Nat.le_refl _

namespace Derivation

variable {outer : Setting} {l m : Lexer} {items : List Item}

theorem reach_le {m' : Lexer} {js : List Item} (h : Derivation outer m js m') : outer.reach m ≤ outer.reach m' := by
  cases outer with
  | within => exact h.offset_le
  | line =>
    rcases h.first with ⟨-, rfl⟩ | ⟨_, _, -, -, hle⟩
    · exact Nat.le_refl _
    · exact Nat.le_trans hle (Setting.line.offset_le_reach m')

theorem ahead_le (h : Derivation outer l items m) (hmoves : m.rest.length < l.rest.length) : l.ahead.stop ≤ m.offset := by
  rcases h.first with ⟨-, rfl⟩ | ⟨_, _, -, -, hle⟩
  · exact absurd hmoves (Nat.lt_irrefl _)
  · exact hle

/-- What is found between two places, where no block begins. -/
theorem bounds (h : Derivation outer l items m) (hlacks : ∀ t ∈ Item.trees items, t.Lacks Kind.blocks) :
    ∀ f ∈ Item.findingsAll items, l.offset ≤ f.span.start ∧ f.span.stop ≤ outer.reach m := by
  have hbegins : ∀ l : Lexer, l.offset ≤ l.ahead.span.start := fun l => Nat.le_add_right ..
  have hnext : ∀ (l : Lexer) (mode : Mode), l.offset ≤ (l.next mode).offset := fun l _ =>
    Nat.le_trans (hbegins l) (Nat.le_add_right ..)
  induction h with
  | nil | token | word => exact fun f hf => by cases hf
  | @append outer l m l' is js h h' ih ih' =>
    intro f hf
    simp only [Item.trees_append, List.mem_append] at hlacks
    rw [Item.findingsAll_append, List.mem_append] at hf
    rcases hf with hf | hf
    · have hbound := ih (fun t ht => hlacks t (.inl ht)) f hf
      exact ⟨hbound.1, Nat.le_trans hbound.2 h'.reach_le⟩
    · have hbound := ih' (fun t ht => hlacks t (.inr ht)) f hf
      exact ⟨Nat.le_trans h.offset_le hbound.1, hbound.2⟩
  | missingName l =>
    intro f hf
    rw [List.mem_singleton.mp hf]
    exact ⟨hbegins l, Nat.le_refl _⟩
  | node _ _ _ _ ih =>
    simp only [Item.findingsAll, Item.findings, List.append_nil]
    exact ih (Tree.Lacks.inside (hlacks _ (List.mem_singleton_self _)))
  | @problem l l' is _ _ h hmoves ih =>
    intro f hf
    simp only [Item.findingsAll, Item.findings, List.append_nil, List.singleton_append, List.mem_cons] at hf
    rcases hf with rfl | hf
    · exact ⟨hbegins l, Nat.le_trans (h.ahead_le hmoves) (Setting.line.offset_le_reach l')⟩
    · exact ih (Tree.Lacks.inside (hlacks _ (List.mem_singleton_self _))) f hf
  | @unknown l | @openComment l =>
    intro f hf
    simp only [Item.findingsAll, Item.findings, Lexer.item, List.append_nil, List.mem_singleton] at hf
    subst hf
    exact ⟨hbegins l, Setting.line.offset_le_reach (l.next _)⟩
  | @openBlock _ _ _ is kind _ hk =>
    have hblocks : ∀ block ∈ Problem.openBlocks, block.1 ∈ Kind.blocks := by decide
    have hlack := hlacks _ (by rw [Item.trees_givenUp]; exact List.mem_singleton_self _)
    exact absurd (hblocks _ hk) hlack.2.1.1
  | plainMacro => exact fun f hf => by cases hf
  | @bracedMacro outer l b m is hl hb hbrace hname hm =>
    intro f hf
    have hf : f ∈ Item.findingsAll is := by
      simpa [Item.findingsAll, Item.findings, Item.findingsAll_append, Lexer.item] using hf
    subst hb
    rcases hname with ⟨-, -, rfl, -⟩ | ⟨-, ⟨-, rfl, rfl⟩ | ⟨-, rfl, -⟩⟩
    · cases hf
    · rw [List.mem_singleton.mp hf]
      have hle := hnext l .globalMacro
      have hle' := hnext (l.next .globalMacro) .globalMacro
      exact ⟨Nat.le_trans hle (Nat.le_trans hle' (hbegins _)), outer.offset_le_reach (Lexer.next _ outer.mode)⟩
    · cases hf
  | @openMacro outer l b m is hl hb hbrace hname hm =>
    intro f hf
    have hstart : m.ahead.start = m.offset :=
      Lexer.start_eq_offset (by rw [mode_of_braces hname]; rfl)
    -- a name that is missing would have been found at the closing brace
    have hnone : Item.findingsAll is = [] := by
      rcases hname with ⟨-, -, rfl, -⟩ | ⟨-, ⟨hbrace, -, rfl⟩ | ⟨-, rfl, -⟩⟩
      · rfl
      · exact absurd hbrace hm
      · rfl
    have hf : f = ⟨.unterminatedGlobalMacro, ⟨l.ahead.start, m.ahead.start⟩⟩ := by
      simpa [Item.findingsAll, Item.findings, Item.findingsAll_append, Lexer.item, hnone] using hf
    subst hf
    exact ⟨hbegins l, hstart ▸ outer.offset_le_reach (m.relex outer.mode)⟩
  | @closed outer q l m is hq hl h hm ih =>
    intro f hf
    have hf : f ∈ Item.findingsAll is := by
      simpa [Item.findingsAll, Item.findings, Item.findingsAll_append, Lexer.item] using hf
    have hinside := Tree.Lacks.inside (hlacks _ (List.mem_singleton_self _))
    have hbound := ih (fun t ht => hinside t (by
      rw [List.cons_append, ← List.singleton_append, Item.trees_append, Item.trees_append]
      simp [ht])) f hf
    exact ⟨Nat.le_trans (hnext l q.mode) hbound.1,
      Nat.le_trans (Nat.le_trans hbound.2 (hnext m outer.mode)) (outer.offset_le_reach _)⟩
  | @unclosed outer q l m is hq hl h hm ih =>
    intro f hf
    have hf : f ∈ Item.findingsAll is ∨ f = ⟨q.problem, l.ahead.span⟩ := by
      simpa [Item.findingsAll, Item.findings, Item.findingsAll_append, Lexer.item] using hf
    rcases hf with hf | rfl
    · have hgiven := hlacks _ (by rw [Item.trees_givenUp]; exact List.mem_singleton_self _)
      have hinside := Tree.Lacks.inside hgiven.2.1
      have hbound := ih (fun t ht => hinside t (by
        rw [← List.singleton_append, Item.trees_append]
        simp [ht])) f hf
      exact ⟨Nat.le_trans (hnext l q.mode) hbound.1, Nat.le_trans hbound.2 (outer.offset_le_reach (m.relex outer.mode))⟩
    · exact ⟨hbegins l, Nat.le_trans h.offset_le (outer.offset_le_reach (m.relex outer.mode))⟩

end Derivation

/-! ## Comments -/

def CloserAt (text : List Char) (offset : Nat) : Prop :=
  ∃ before after, text = before ++ '*' :: '/' :: after ∧ byteSize before = offset

theorem closerAt_cons {c : Char} {rest : List Char} (h : ¬ ['*', '/'] <+: c :: rest) {offset : Nat} :
    CloserAt (c :: rest) offset ↔ ∃ i, CloserAt rest i ∧ offset = c.utf8Size + i := by
  constructor
  · rintro ⟨before, after, htext, rfl⟩
    cases before with
    | nil => exact absurd ⟨after, htext.symm⟩ h
    | cons d before =>
      obtain ⟨rfl, hrest⟩ := List.cons.inj htext
      exact ⟨byteSize before, ⟨before, after, hrest, rfl⟩, byteSize_cons ..⟩
  · rintro ⟨_, ⟨before, after, rfl, rfl⟩, rfl⟩
    exact ⟨c :: before, after, rfl, byteSize_cons ..⟩

/-- A block comment ends with the first star and slash behind its opener, or takes all that there is. -/
theorem Lexeme.blockCommentTail_ends (text : List Char) :
    (∃ inner after, text = inner ++ '*' :: '/' :: after ∧ blockCommentTail text = inner ++ ['*', '/'] ∧
        ∀ i, CloserAt text i → byteSize inner ≤ i) ∨
      blockCommentTail text = text ∧ ∀ i, ¬ CloserAt text i := by
  induction text with
  | nil => exact .inr ⟨rfl, fun i ⟨before, after, htext, _⟩ => by simp at htext⟩
  | cons c rest ih =>
    by_cases hend : ['*', '/'] <+: c :: rest
    · obtain ⟨after, hafter⟩ := hend
      rw [← hafter]
      exact .inl ⟨[], after, rfl, rfl, fun i _ => Nat.zero_le i⟩
    simp only [blockCommentTail_cons hend, closerAt_cons hend]
    rcases ih with ⟨inner, after, rfl, htail, hfirst⟩ | ⟨htail, hnone⟩
    · refine .inl ⟨c :: inner, after, rfl, by rw [htail]; rfl, ?_⟩
      rintro _ ⟨i, hi, rfl⟩
      exact byteSize_cons .. ▸ Nat.add_le_add_left (hfirst i hi) _
    · exact .inr ⟨by rw [htail], fun _ ⟨i, hi, _⟩ => hnone i hi⟩

/-- A block comment without its end goes on to the end of the text. -/
theorem Lexer.after_of_openComment {l : Lexer} (h : Reading.AtOpenComment l) : l.after = [] := by
  obtain ⟨hk, hopen⟩ := h
  obtain ⟨-, tail, hbody, htext⟩ := text_of_blockComment hk
  have happend := l.text_append_after
  rw [htext, hbody] at happend
  rcases Lexeme.blockCommentTail_ends tail with ⟨inner, _, -, htail, -⟩ | ⟨hall, -⟩
  · have hclosed : Lexeme.isTerminatedBlockComment l.ahead.text = true := by
      rw [htext, Lexeme.isTerminatedBlockComment_cons, htail]
      exact List.suffix_append inner _
    rw [hclosed] at hopen
    cases hopen
  · rw [hall] at happend
    simpa using happend

namespace Reading

/-- What is found at a comment is found where it stands. -/
theorem stop_of_comment {l m : Lexer} {items : List Item} (hl : l.kind.isComment = true)
    (h : argument.leads l items m) : ∀ f ∈ Item.findingsAll items, l.offset ≤ f.span.start ∧ f.span.stop ≤ m.offset := by
  have hahead := (derives_argument (p := fun _ => True) trivial h).ahead_le (moves_argument h)
  rcases argument_of_comment hl h with rfl | ⟨-, rfl⟩
  · exact fun f hf => by cases hf
  · intro f hf
    simp only [Item.findingsAll, Item.findings, Lexer.item, List.append_nil, List.mem_singleton] at hf
    subst hf
    exact ⟨Nat.le_add_right .., hahead⟩

theorem stop_of_trailingComments {l m : Lexer} {items : List Item} (h : trailingComments.leads l items m) :
    ∀ f ∈ Item.findingsAll items, l.offset ≤ f.span.start ∧ f.span.stop ≤ m.offset := by
  induction h with
  | done => exact fun f hf => by cases hf
  | @more l k m is js hs first rest ih =>
    intro f hf
    have hcomment := isComment_of_atTrailingComment (Classical.not_not.mp hs)
    have hle : l.offset ≤ k.offset := (argument.account first).offset_le
    have hle' : k.offset ≤ m.offset := (trailingComments.account rest).offset_le
    rw [Item.findingsAll_append, List.mem_append] at hf
    rcases hf with hf | hf
    · have hbound := stop_of_comment hcomment first f hf
      exact ⟨hbound.1, Nat.le_trans hbound.2 hle'⟩
    · exact ⟨Nat.le_trans hle (ih f hf).1, (ih f hf).2⟩

/-- A block comment is taken as it is, unless it has no end. -/
theorem argument_of_blockComment {l m : Lexer} {items : List Item} (hl : l.kind = .blockComment)
    (h : argument.leads l items m) : AtOpenComment l ∧ m = l.next .statement ∨ items = [l.item] := by
  have hne : ∀ kind : Kind, kind ≠ .blockComment → l.kind ≠ kind := fun _ hne e => hne (e.symm.trans hl)
  have h := (h.resolve_left fun hs => hne _ (by decide) hs.1).2
  have h := (h.resolve_left fun hs => hne _ (by decide) hs.1).2
  have h := (h.resolve_left fun hs => hne _ (by decide) hs.1).2
  have h := (h.resolve_left fun hs => hne _ (by decide) hs.1).2
  rcases h with ⟨hopen, _, ⟨_, _, _, ⟨-, rfl⟩, ⟨-, -, rfl⟩, -⟩, -⟩ | ⟨-, h⟩
  · exact .inl ⟨hopen, rfl⟩
  · exact .inr (h.resolve_left fun hs => hne _ (by decide) hs.1).2.2.1

/-- Before a statement all comments have their ends. -/
theorem findings_of_comments {l m : Lexer} {items : List Item}
    (h : (many (·.kind ≠ .blockComment) comment).leads l items m) (hm : m.kind ≠ .eof) :
    Item.findingsAll items = [] := by
  induction h with
  | done => rfl
  | @more l k m is js hs first rest ih =>
    have hblock : l.kind = .blockComment := Classical.not_not.mp hs
    obtain ⟨_, hcomment, rfl⟩ := first
    rcases argument_of_blockComment hblock hcomment with ⟨hopen, rfl⟩ | rfl
    · -- behind a comment without its end there is nothing more to read
      have heof : (l.next .statement).kind = .eof := Lexer.kind_of_rest_nil (Lexer.after_of_openComment hopen)
      cases rest with
      | done => exact absurd heof hm
      | more hne => exact absurd (heof ▸ by decide) hne
    · rw [Item.findingsAll_append, ih hm]
      rfl

end Reading

/-! ## Stretches of a text -/

def Finding.Before (f : Finding) (m : Lexer) : Prop :=
  f.span.stop ≤ m.offset ∨ m.EndsLine ∧ f.span.stop ≤ m.ahead.stop

structure Bounded (l : Lexer) (items : List Item) (m : Lexer) : Prop where
  account : Account l items m
  reach : m = l ∨ l.ahead.stop ≤ m.offset
  found : ∀ f ∈ Item.findingsAll items, l.offset ≤ f.span.start ∧ f.Before m

namespace Bounded

variable {l m m' : Lexer} {is js : List Item}

theorem before (h : Bounded m js m') {f : Finding} (hf : f.Before m) : f.Before m' := by
  rcases hf with hf | ⟨hm, hf⟩
  · exact .inl (Nat.le_trans hf h.account.offset_le)
  · rcases h.reach with rfl | hle
    · exact .inr ⟨hm, hf⟩
    · exact .inl (Nat.le_trans hf hle)

theorem append (h : Bounded l is m) (h' : Bounded m js m') : Bounded l (is ++ js) m' where
  account := h.account.append h'.account
  reach := by
    rcases h.reach with rfl | hle
    · exact h'.reach
    · exact .inr (Nat.le_trans hle h'.account.offset_le)
  found f hf := by
    rw [Item.findingsAll_append, List.mem_append] at hf
    rcases hf with hf | hf
    · exact ⟨(h.found f hf).1, h'.before (h.found f hf).2⟩
    · exact ⟨Nat.le_trans h.account.offset_le (h'.found f hf).1, (h'.found f hf).2⟩

theorem of_derivation (h : Derivation .line l is m)
    (hfound : ∀ f ∈ Item.findingsAll is, l.offset ≤ f.span.start ∧ f.Before m) : Bounded l is m := by
  refine ⟨h.account, ?_, hfound⟩
  rcases h.first with ⟨-, rfl⟩ | ⟨_, _, -, -, hle⟩
  · exact .inl rfl
  · exact .inr hle

/-- Up to the end of a line everything found lies before it, or at it. -/
theorem plain (h : Derivation .line l is m) (hlacks : ∀ t ∈ Item.trees is, t.Lacks Kind.blocks) (hm : m.EndsLine) :
    Bounded l is m :=
  of_derivation h fun f hf => ⟨(h.bounds hlacks f hf).1, .inr ⟨hm, (h.bounds hlacks f hf).2⟩⟩

theorem silent (h : Derivation .line l is m) (hnone : Item.findingsAll is = []) : Bounded l is m :=
  of_derivation h fun f hf => by rw [hnone] at hf; cases hf

theorem node (h : Bounded l is m) {kind : Kind} (hk : kind.isNode = true) : Bounded l [.node kind is] m :=
  ⟨.node hk h.account, h.reach, by simpa [Item.findingsAll, Item.findings] using h.found⟩

theorem givenUp (h : Bounded l is m) (hmoves : l.ahead.stop ≤ m.offset) {kind : Kind} (hk : kind.isNode = true)
    (problem : Problem) : Bounded l [.enclosed kind (is ++ [.found ⟨problem, l.ahead.span⟩])] m where
  account := .enclosed hk (h.account.append (.found m (Nat.le_add_right ..)))
  reach := .inr hmoves
  found f hf := by
    rw [Item.findingsAll_givenUp, List.mem_append, List.mem_singleton] at hf
    rcases hf with hf | rfl
    · exact h.found f hf
    · exact ⟨Nat.le_add_right .., .inl hmoves⟩

end Bounded

end Dofile
