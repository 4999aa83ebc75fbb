import Dofile.Editor.Indent
import Dofile.Proofs.MataForms
import Dofile.Proofs.Unfinished

/-!
# Where blocks begin and end

Programs and mata blocks begin with their keywords. Those that are not on one line have one `end` or brace of their own
among their children, or none if their end is missing, and then it is found to be missing. A mata block on one line has
none.
-/

namespace Dofile

open Reading (mataOpening MataEnds many take)

def Kind.endsBlock (parent k : Kind) : Bool :=
  k == .endKeyword && (parent == .programDefinition || parent == .mataBlock) ||
    k == .rightBrace && parent == .mataBlock

namespace Tree

def BeginsBlock (t : Tree) : Prop :=
  ∃ kind word ts, (kind = .programKeyword ∨ kind = .mataKeyword) ∧ t.children = .leaf kind word :: ts

def endsBlock (parent : Kind) (t : Tree) : Bool := t.isLeaf && parent.endsBlock t.kind

def closers (t : Tree) : Nat := t.children.countP (endsBlock t.kind)

variable {t : Tree} {ts : List Tree}

theorem not_endsBlock {parent : Kind} (hend : t.kind ≠ .endKeyword)
    (hbrace : t.kind = .rightBrace → parent ≠ .mataBlock) :
    endsBlock parent t = false := by
  unfold endsBlock Kind.endsBlock
  rw [beq_eq_false_iff_ne.mpr hend, Bool.false_and, Bool.false_or, Bool.and_eq_false_iff, Bool.and_eq_false_iff]
  by_cases hkind : t.kind = .rightBrace
  · exact .inr (.inr (beq_eq_false_iff_ne.mpr (hbrace hkind)))
  · exact .inr (.inl (beq_eq_false_iff_ne.mpr hkind))

theorem countP_endsBlock {parent : Kind} (h : ∀ t ∈ ts, endsBlock parent t = false) :
    ts.countP (endsBlock parent) = 0 := List.countP_eq_zero.mpr fun t ht => by simp [h t ht]

theorem closers_of_kind (h : t.kind ≠ .programDefinition) (h' : t.kind ≠ .mataBlock) : t.closers = 0 :=
  countP_endsBlock fun c _ => by simp [endsBlock, Kind.endsBlock, h, h']

/-- Blanks end no block. -/
theorem closers_eq_contents (t : Tree) : t.closers = t.contents.countP (endsBlock t.kind) := by
  rw [closers, contents, List.countP_filter]
  refine List.countP_congr fun c _ => ?_
  by_cases hspace : c.kind = .whitespace
  · have hblank : endsBlock t.kind c = false :=
      not_endsBlock (by rw [hspace]; decide) fun hk => absurd (hspace.symm.trans hk) (by decide)
    rw [hblank, Bool.false_and]
  · simp [hspace]

theorem IsTrailing.not_closer (h : t.IsTrailing) : t.kind ≠ .endKeyword ∧ t.kind ≠ .rightBrace := by
  rcases h with hspace | ⟨-, hcomment⟩ | ⟨text, rfl⟩
  · rw [hspace]
    decide
  · constructor <;>
    · intro hk
      rw [hk] at hcomment
      cases hcomment
  · exact ⟨nofun, nofun⟩

/-- A program with its `end` has one. -/
theorem EndsOnce.closers (h : t.EndsOnce) (hkind : t.kind = .programDefinition) : t.closers = 1 := by
  obtain ⟨before, word, after, hchildren, hbefore, hafter⟩ := h
  have hother : ∀ c : Tree, c.kind ≠ .endKeyword → endsBlock .programDefinition c = false :=
    fun c hc => not_endsBlock hc fun _ => by decide
  rw [Tree.closers, hchildren, List.countP_append, hkind, countP_endsBlock fun c hc => hother c (hbefore c hc),
    List.countP_cons_of_pos rfl, countP_endsBlock fun c hc => hother c (hafter c hc).not_closer.1]

theorem closers_of_open (h : t.isOpenProgram = true) : t.closers = 0 := by
  rw [closers, kind_of_isOpenProgram h]
  exact countP_endsBlock fun c hc => not_endsBlock (ends_of_isOpenProgram h hc) fun _ => by decide

end Tree

/-! ## Mata blocks -/

namespace Place

def ClosesOnce (p : Parse) (q : Place) : Prop :=
  let opened := if (IndentChange.ofNode? q).isSome then 1 else 0
  q.tree.closers ≤ opened ∧ (p.diagnostics = [] → q.tree.closers = opened)

def StandsInside (r : Tree × Span) : Prop := r.1.kind ≠ .endKeyword ∧ r.1.kind ≠ .rightBrace

theorem countP_inside {rs : List (Tree × Span)} (h : ∀ r ∈ rs, StandsInside r) :
    (rs.map Prod.fst).countP (Tree.endsBlock .mataBlock) = 0 :=
  Tree.countP_endsBlock (List.forall_mem_map.mpr fun r hr =>
    Tree.not_endsBlock (h r hr).1 fun hk => absurd hk (h r hr).2)

section
variable {q : Place} (hkind : q.kind = .mataBlock)
include hkind

/-- How many children end a mata block is told by their row. -/
theorem closers_of_row {rs : List (Tree × Span)} (h : q.contents.map region = rs) :
    q.tree.closers = (rs.map Prod.fst).countP (Tree.endsBlock .mataBlock) := by
  rw [Tree.closers_eq_contents, ← map_tree_contents, show q.tree.kind = _ from hkind, ← h, List.map_map]
  rfl

theorem no_closers {rs : List (Tree × Span)} (h : q.contents.map region = rs) (hrs : ∀ r ∈ rs, StandsInside r) :
    q.tree.closers = 0 := by rw [closers_of_row hkind h, countP_inside hrs]

theorem one_closer {before after : List (Tree × Span)} {kind : Kind} {word : List Char} {s : Span}
    (h : q.contents.map region = before ++ (.leaf kind word, s) :: after)
    (hcloser : kind = .endKeyword ∨ kind = .rightBrace) (hbefore : ∀ r ∈ before, StandsInside r)
    (hafter : ∀ r ∈ after, StandsInside r) : q.tree.closers = 1 := by
  have hends : Tree.endsBlock .mataBlock (.leaf kind word) = true := by rcases hcloser with rfl | rfl <;> rfl
  rw [closers_of_row hkind h, List.map_append, List.map_cons, List.countP_append, List.countP_cons_of_pos hends,
    countP_inside hbefore, countP_inside hafter]

end

theorem closesOnce_of_form {p : Parse} {q : Place} (hkind : q.kind = .mataBlock)
    (h : q.tree.closers ≤ (if Typed.mataForm q = .inline then 0 else 1) ∧
      (p.diagnostics = [] → q.tree.closers = if Typed.mataForm q = .inline then 0 else 1)) : q.ClosesOnce p := by
  have hopened : (if (IndentChange.ofNode? q).isSome then 1 else 0) = if Typed.mataForm q = .inline then 0 else 1 := by
    rw [IndentChange.ofNode?, hkind]
    by_cases hform : Typed.mataForm q = .inline <;> simp [hform]
  rw [ClosesOnce, hopened]
  exact h

namespace ReadsMata

variable {text : List Char} {q : Place} {b k o n m e : Lexer} {bs is js ts : List Item}

theorem begins (h : q.ReadsMata text b k o bs m ts e) : q.tree.BeginsBlock := by
  obtain ⟨js, rfl, -⟩ | ⟨js, problem, rfl, -⟩ := h.block.holds
  · obtain ⟨hinside, hregion⟩ := h.region_of_node
    obtain ⟨is, rfl⟩ := hinside.first
    rw [Tree.BeginsBlock, show q.tree = _ from congrArg Prod.fst hregion]
    exact ⟨_, _, _, .inr rfl, rfl⟩
  · obtain ⟨hinside, hregion⟩ := h.region_of_givenUp
    obtain ⟨is, rfl⟩ := hinside.first
    rw [Tree.BeginsBlock, show q.tree = _ from congrArg Prod.fst hregion]
    exact ⟨_, _, _, .inr rfl, rfl⟩

/-- What is found in a block is found in the text. -/
theorem not_silent (h : q.ReadsMata text b k o bs m ts e) (hfound : Item.findingsAll bs ≠ []) :
    (Parse.ofText text).diagnostics ≠ [] := by
  obtain ⟨fs, gs, hfindings, -⟩ := h.found
  rw [Parse.diagnostics, Ne, List.map_eq_nil_iff, hfindings]
  simp [hfound]

theorem inside_of_opening (h : q.ReadsMata text b k o bs m ts e) (opening : mataOpening.leads k is o) :
    ∀ r ∈ Item.row k is, StandsInside r := by
  intro r hr
  rcases (head_of_opening opening h.word).1.kinds r hr with hk | hk <;> rw [StandsInside, hk] <;> decide

theorem inside_of_lines (h : q.ReadsMata text b k o bs m ts e) (opening : mataOpening.leads k is o) (line : o.EndsLine)
    (content : (many MataEnds (take .mataLine)).leads o js n) : ∀ r ∈ Item.row o js, StandsInside r := by
  intro r hr
  rcases (h.mataRun_of_opening opening line content).body.kinds r hr with hk | hk <;> rw [StandsInside, hk] <;> decide

/-- A brace with the content behind it. -/
theorem inside_of_braces (start : Nat) (content : List Char) :
    ∀ r ∈ (.leaf .leftBrace ['{'], .ofText start ['{']) :: mataContent (start + 1) content, StandsInside r := by
  unfold mataContent
  refine List.forall_mem_cons.mpr ⟨⟨nofun, nofun⟩, ?_⟩
  split
  · exact nofun
  · exact List.forall_mem_singleton.mpr ⟨nofun, nofun⟩

theorem closesOnce (h : q.ReadsMata text b k o bs m ts e) (hsize : byteSize text ≤ maxOffset)
    (hq : q ∈ (Parse.ofText text).root.elements) : q.ClosesOnce (Parse.ofText text) := by
  refine closesOnce_of_form h.kind ?_
  have hform := h.mataForm_eq hsize hq
  have hblock := h.block
  cases hblock with
  | @braces n is js opening brace content closer =>
    have hone : q.tree.closers = 1 :=
      one_closer h.kind (h.closed_braces opening brace content closer).2 (.inr rfl)
        (List.forall_mem_append.mpr ⟨h.inside_of_opening opening, inside_of_braces _ _⟩) nofun
    rw [hone, hform, if_pos brace]
    exact ⟨Nat.le_refl 1, fun _ => rfl⟩
  | @openBraces n is js opening brace content closer =>
    have hnone : q.tree.closers = 0 :=
      no_closers h.kind (h.open_braces hsize hq opening brace content closer).2.2.1
        (List.forall_mem_append.mpr ⟨h.inside_of_opening opening, inside_of_braces _ _⟩)
    have hfound : (Parse.ofText text).diagnostics ≠ [] := h.not_silent (by rw [Item.findingsAll_givenUp]; simp)
    rw [hnone]
    exact ⟨Nat.zero_le _, fun hsilent => absurd hsilent hfound⟩
  | @lines n m is js cs opening line content closer comments =>
    have hnewline := Reading.newline_of_mataLines line content (by rw [closer]; decide)
    have hone : q.tree.closers = 1 :=
      one_closer h.kind (h.of_node.2.trans (Reading.row_lines opening content closer)) (.inl rfl)
        (List.forall_mem_append.mpr ⟨h.inside_of_opening opening, h.inside_of_lines opening line content⟩)
        fun r hr => (trailing_of_comments comments r.1 (Item.mem_trees_of_row hr)).not_closer
    rw [hone, hform, hnewline]
    exact ⟨Nat.le_refl 1, fun _ => rfl⟩
  | @openLines n is js opening line content closer =>
    have hrow := (h.of_givenUp hsize hq).1.2.trans (Item.row_append (mataOpening.account opening))
    have hnone : q.tree.closers = 0 := no_closers h.kind hrow
      (List.forall_mem_append.mpr ⟨h.inside_of_opening opening, h.inside_of_lines opening line content⟩)
    have hfound : (Parse.ofText text).diagnostics ≠ [] := h.not_silent (by rw [Item.findingsAll_givenUp]; simp)
    rw [hnone]
    exact ⟨Nat.zero_le _, fun hsilent => absurd hsilent hfound⟩
  | @inline is opening brace line =>
    -- what is taken on the line is content, or the second of two colons
    have hkind : o.kind ≠ .endKeyword ∧ o.kind ≠ .rightBrace := by
      cases o.headCase h.mode_eq with
      | done hdone => exact absurd hdone line
      | brace _ _ hk => exact absurd hk brace
      | colon _ _ hk | content _ _ _ _ hk =>
        rw [hk]
        decide
    have hnone : q.tree.closers = 0 := no_closers h.kind (h.of_inline opening).2
      (List.forall_mem_append.mpr ⟨h.inside_of_opening opening, List.forall_mem_singleton.mpr hkind⟩)
    rw [hnone, h.mataForm_of_inline opening brace line]
    exact ⟨Nat.le_refl 0, fun _ => rfl⟩

end ReadsMata

end Place

/-! ## The blocks of a text -/

namespace Parse

variable {text : List Char} (hsize : byteSize text ≤ maxOffset) {q : Place} (hq : q ∈ (ofText text).root.nodes)
include hsize hq

theorem begins_of_block (hkind : q.kind = .programDefinition ∨ q.kind = .mataBlock) : q.tree.BeginsBlock := by
  obtain ⟨helement, hnode⟩ := Place.mem_nodes_iff.mp hq
  rcases hkind with hkind | hkind
  · obtain ⟨items, l, h⟩ := Reading.exists_lines text
    obtain ⟨opens, hprograms⟩ := Reading.keepsPrograms_lines text.length h
    have hkept := (Place.all_elements (keepsPrograms_root h hsize hprograms) q helement).self
    obtain ⟨⟨word, ts, hchildren⟩, -⟩ := hkept.program hnode hkind
    exact ⟨_, word, ts, .inl rfl, hchildren⟩
  · obtain ⟨_, _, _, _, _, _, _, h⟩ := readsMata hsize hq hkind
    exact h.begins

theorem closesOnce_of_program (hkind : q.kind = .programDefinition) : q.ClosesOnce (ofText text) := by
  obtain ⟨items, l, h⟩ := Reading.exists_lines text
  obtain ⟨opens, hprograms⟩ := Reading.keepsPrograms_lines text.length h
  obtain ⟨helement, hnode⟩ := Place.mem_nodes_iff.mp hq
  have hkept := (Place.all_elements (keepsPrograms_root h hsize hprograms) q helement).self
  have hopened : (if (IndentChange.ofNode? q).isSome then 1 else 0) = 1 := by rw [IndentChange.ofNode?, hkind]; rfl
  rw [Place.ClosesOnce, hopened]
  rcases (hkept.program hnode hkind).2 with hopen | hends
  · -- its missing `end` is found
    obtain ⟨keyword, -, -, -, hcount⟩ := (unfinished_of_open h hsize hprograms helement hopen).found
    refine ⟨by rw [Tree.closers_of_open hopen]; exact Nat.zero_le 1, fun hsilent => ?_⟩
    rw [missingEnds, hsilent] at hcount
    cases hcount
  · rw [hends.closers hkind]
    exact ⟨Nat.le_refl 1, fun _ => rfl⟩

/-- Every node that opens a block closes it once at most, and every node if nothing is found in the text. -/
theorem closesOnce_of_node : q.ClosesOnce (ofText text) := by
  by_cases hprogram : q.kind = .programDefinition
  · exact closesOnce_of_program hsize hq hprogram
  by_cases hmata : q.kind = .mataBlock
  · obtain ⟨_, _, _, _, _, _, _, h⟩ := readsMata hsize hq hmata
    exact h.closesOnce hsize (Place.mem_nodes_iff.mp hq).1
  · rw [Place.ClosesOnce, Tree.closers_of_kind hprogram hmata]
    have hopened : IndentChange.ofNode? q = none := by
      unfold IndentChange.ofNode?
      split
      · next hk => exact absurd hk hprogram
      · next hk => exact absurd hk hmata
      · rfl
    rw [hopened]
    exact ⟨Nat.le_refl 0, fun _ => rfl⟩

end Parse

end Dofile
