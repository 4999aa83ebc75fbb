import Dofile.Proofs.Programs

/-!
# Statements within statements

Only the lines of a program hold statements in turn. What any other rule reads is without nodes of
the kinds of statements, but for the node that is its own.
-/

namespace Dofile

def Tree.Lacks (kinds : List Kind) (t : Tree) : Prop := t.All fun u => u.kind ∉ kinds

namespace Reading

def Lacks (kinds : List Kind) (R : Reading) : Prop :=
  ∀ ⦃l items m⦄, R.leads l items m → ∀ t ∈ Item.trees items, t.Lacks kinds

section
variable {kinds : List Kind} {R S : Reading}

theorem lacks_report (problem : Problem) : (report problem).Lacks kinds := by
  intro l items m h t ht
  obtain ⟨rfl, -⟩ := h
  cases ht

theorem lacks_skip : skip.Lacks kinds := by
  intro l items m h t ht
  obtain ⟨rfl, -⟩ := h
  cases ht

theorem Lacks.seq (h : R.Lacks kinds) (h' : S.Lacks kinds) : (R.seq S).Lacks kinds := by
  intro l items m hRS
  obtain ⟨is, k, js, hR, hS, rfl⟩ := hRS
  exact Item.forall_trees_append (h hR) (h' hS)

theorem Lacks.when (h : R.Lacks kinds) (c : Lexer → Prop) : (R.when c).Lacks kinds := fun _ _ _ hR => h hR.2

theorem Lacks.or (h : R.Lacks kinds) (h' : S.Lacks kinds) : (R.or S).Lacks kinds :=
  fun _ _ _ hRS => hRS.elim (h ·) (h' ·)

theorem Lacks.either (h : R.Lacks kinds) (h' : S.Lacks kinds) (c : Lexer → Prop) : (either c R S).Lacks kinds :=
  (h.when c).or (h'.when _)

theorem Lacks.many (h : R.Lacks kinds) (stops : Lexer → Prop) : (many stops R).Lacks kinds := by
  intro l items m hmany
  induction hmany with
  | done => exact fun t ht => by cases ht
  | more _ first _ ih => exact Item.forall_trees_append (h first) ih

theorem lacks_over (hblank : .whitespace ∉ kinds) {items : List Item} (h : ∀ t ∈ Item.trees items, t.Lacks kinds)
    {kind : Kind} (hk : kind ∉ kinds) : (Tree.node kind (Script.waiting (Item.scriptsAll items))).Lacks kinds :=
  Tree.all_node hk ((Item.spaced_waiting items).forall h fun _ => hblank)

theorem Lacks.over (h : R.Lacks kinds) (hblank : .whitespace ∉ kinds) {kind : Kind} (hk : kind ∉ kinds)
    (hnode : kind.isNode = true) : (Reading.node kind R hnode).Lacks kinds := by
  intro l items m hR t ht
  obtain ⟨is, hR, rfl⟩ := hR
  rw [Item.trees_node, List.mem_singleton] at ht
  exact ht ▸ lacks_over hblank (h hR) hk

variable (hkinds : ∀ kind ∈ kinds, Typed.isStatement kind = true)
include hkinds

theorem not_mem_of_not_statement {kind : Kind} (h : Typed.isStatement kind = false) : kind ∉ kinds := fun hmem => by
  rw [hkinds kind hmem] at h
  cases h

theorem not_mem_of_leaf {kind : Kind} (h : kind.isNode = false) : kind ∉ kinds :=
  not_mem_of_not_statement hkinds (by cases kind <;> first | rfl | cases h)

theorem lacks_leaf {kind : Kind} (h : kind.isNode = false) (text : List Char) : (Tree.leaf kind text).Lacks kinds :=
  not_mem_of_leaf hkinds h

theorem lacks_take (mode : Mode) : (take mode).Lacks kinds := by
  intro l items m h t ht
  obtain ⟨-, rfl, -⟩ := h
  rw [Lexer.item, Item.trees_token, List.mem_singleton] at ht
  exact ht ▸ lacks_leaf hkinds l.isNode_kind _

theorem lacks_word {kind : Kind} (mode : Mode) (hlabel : kind ∈ Kind.wordLabels) :
    (word kind mode hlabel).Lacks kinds := by
  intro l items m h t ht
  obtain ⟨-, rfl, -⟩ := h
  rw [Item.trees_token, List.mem_singleton] at ht
  exact ht ▸ lacks_leaf hkinds (Kind.isNode_of_mem_wordLabels hlabel) _

theorem lacks_eat (kind : Kind) (mode : Mode) : (eat kind mode).Lacks kinds :=
  (lacks_take hkinds mode).either lacks_skip _

theorem Lacks.node (h : R.Lacks kinds) {kind : Kind} (hk : kind ∉ kinds) (hnode : kind.isNode = true) :
    (node kind R hnode).Lacks kinds := h.over (not_mem_of_leaf hkinds rfl) hk hnode

/-! ## Rules -/

/-- An argument holds no reserved kinds, and those of statements are. -/
theorem lacks_of_arguments {c : Lexer → Prop} (h : Yields c R Form.arguments) {l m : Lexer} {items : List Item}
    (hl : c l) (hR : R.leads l items m) : ∀ t ∈ Item.trees items, t.Lacks kinds := by
  intro t ht
  have hargument : t.All fun u => u.kind.isReserved = false := (h hl hR).mem t ht
  refine Tree.All.imp (fun u hu => ?_) t hargument
  refine not_mem_of_not_statement hkinds ?_
  have hu := hu.self
  simp only [Kind.isReserved, Bool.or_eq_false_iff] at hu
  exact hu.1.2

theorem lacks_takeInError (problem : Problem) : (takeInError problem).Lacks kinds :=
  ((lacks_report problem).seq (lacks_take hkinds _)).node hkinds (not_mem_of_not_statement hkinds rfl) _

theorem lacks_argument : argument.Lacks kinds := by
  intro l items m h
  by_cases hl : l.EndsLine
  · have hopens : l.kind ∉ [Kind.doubleQuote, .compoundOpen, .backtick, .dollar] := by
      rcases hl with hk | hk <;> rw [hk] <;> decide
    rcases argument_cases h hopens with ⟨problem, h⟩ | ⟨-, h⟩
    · exact lacks_takeInError hkinds problem h
    · exact lacks_take hkinds _ h
  · exact lacks_of_arguments hkinds yields_argument hl h

theorem lacks_arguments : arguments.Lacks kinds := (lacks_argument hkinds).many _

theorem lacks_trailingComments : trailingComments.Lacks kinds := (lacks_argument hkinds).many _

theorem lacks_remnant : remnant.Lacks kinds :=
  lacks_skip.either (((lacks_report _).seq (lacks_arguments hkinds)).node hkinds
    (not_mem_of_not_statement hkinds rfl) _) _

theorem lacks_nameWord : nameWord.Lacks kinds :=
  (lacks_word hkinds _ _).node hkinds (not_mem_of_not_statement hkinds rfl) _

theorem lacks_name (problem : Problem) : (name problem).Lacks kinds := (lacks_nameWord hkinds).either (lacks_report _) _

theorem lacks_comment (h : .comment ∉ kinds) : comment.Lacks kinds := (lacks_argument hkinds).node hkinds h _

theorem lacks_blockClose (h : .blockClose ∉ kinds) : blockClose.Lacks kinds :=
  ((lacks_take hkinds _).seq (lacks_arguments hkinds)).node hkinds h _

theorem lacks_macroDefinition (h : .macroDefinition ∉ kinds) : macroDefinition.Lacks kinds :=
  (((lacks_word hkinds _ _).either (lacks_word hkinds _ _) _).seq
    ((lacks_name hkinds _).seq (lacks_arguments hkinds))).node hkinds h _

theorem lacks_temporaryDefinition (h : .macroDefinition ∉ kinds) : temporaryDefinition.Lacks kinds :=
  ((lacks_word hkinds _ _).seq ((lacks_skip.either (lacks_report _) _).seq
    (((lacks_nameWord hkinds).many _).seq (lacks_trailingComments hkinds)))).node hkinds h _

theorem lacks_strayEnd : strayEnd.Lacks kinds :=
  ((lacks_report _).seq ((lacks_word hkinds _ _).seq (lacks_trailingComments hkinds))).node hkinds
    (not_mem_of_not_statement hkinds rfl) _

theorem lacks_commandHead : commandHead.Lacks kinds :=
  (lacks_nameWord hkinds).either ((lacks_argument hkinds).either
    (((lacks_report _).seq (lacks_argument hkinds)).node hkinds (not_mem_of_not_statement hkinds rfl) _) _) _

theorem lacks_commandPrefix : commandPrefix.Lacks kinds :=
  ((lacks_word hkinds _ _).seq (lacks_eat hkinds _ _)).node hkinds (not_mem_of_not_statement hkinds rfl) _

theorem lacks_command (h : .command ∉ kinds) : command.Lacks kinds :=
  (((lacks_commandPrefix hkinds).many _).seq ((lacks_commandHead hkinds).seq (lacks_arguments hkinds))).node hkinds h _

theorem lacks_mataOpening : mataOpening.Lacks kinds := (lacks_word hkinds _ _).seq (lacks_eat hkinds _ _)

end

end Reading

end Dofile
