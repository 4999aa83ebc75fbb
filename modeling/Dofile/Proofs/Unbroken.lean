import Dofile.Proofs.MataBlock

/-!
# What stays on its line

Line breaks are taken at the end of a line, and by the lines of programs and of mata blocks. What any
other rule reads holds none.
-/

namespace Dofile

theorem Form.IsArgument.lacks_newline {t : Tree} (h : Form.IsArgument t) : t.Lacks [.newline] := by
  refine Tree.All.imp (fun u hu => ?_) t h
  have hreserved := hu.self
  intro hk
  rw [List.mem_singleton.mp hk] at hreserved
  cases hreserved

namespace Reading

abbrev Unbroken (R : Reading) : Prop := R.Lacks [.newline]

section
variable {R : Reading} {c stops : Lexer → Prop}

theorem unbroken_token (l : Lexer) {kind : Kind} (hk : kind ≠ .newline) :
    ∀ t ∈ Item.trees [.token l kind], t.Lacks [.newline] := by
  intro t ht
  rw [Item.trees_token, List.mem_singleton] at ht
  rw [ht]
  exact fun h => hk (List.mem_singleton.mp h)

theorem unbroken_take (hc : ∀ l, c l → l.kind ≠ .newline) (mode : Mode) : ((take mode).when c).Unbroken := by
  intro l items m hR
  obtain ⟨hl, -, rfl, -⟩ := hR
  exact unbroken_token l (hc l hl)

theorem unbroken_word {kind : Kind} (mode : Mode) (hlabel : kind ∈ Kind.wordLabels) :
    (word kind mode hlabel).Unbroken := by
  intro l items m hR
  obtain ⟨-, rfl, -⟩ := hR
  refine unbroken_token l fun hk => ?_
  rw [hk] at hlabel
  exact absurd hlabel (by decide)

theorem unbroken_eat {kind : Kind} (hk : kind ≠ .newline) (mode : Mode) : (eat kind mode).Unbroken :=
  (unbroken_take (fun l hl => by rw [hl]; exact hk) mode).or (lacks_skip.when _)

theorem unbroken_many (h : (R.when fun l => ¬ stops l).Unbroken) : (many stops R).Unbroken := by
  intro l items m hmany
  induction hmany with
  | done => exact fun t ht => by cases ht
  | more hs first _ ih => exact Item.forall_trees_append (h ⟨hs, first⟩) ih

theorem Unbroken.node (h : R.Unbroken) {kind : Kind} (hnode : kind.isNode = true) : (node kind R hnode).Unbroken :=
  h.over (by decide) (fun hk => by rw [List.mem_singleton.mp hk] at hnode; cases hnode) hnode

theorem Unbroken.node_when (h : (R.when c).Unbroken) {kind : Kind} (hnode : kind.isNode = true) :
    ((Reading.node kind R hnode).when c).Unbroken := by
  intro l items m hR
  obtain ⟨hl, is, hR, rfl⟩ := hR
  exact Unbroken.node (R := R.when c) h hnode ⟨is, ⟨hl, hR⟩, rfl⟩

theorem Unbroken.seq_when {S : Reading} (h : (R.when c).Unbroken) (h' : S.Unbroken) : ((R.seq S).when c).Unbroken := by
  intro l items m hR
  obtain ⟨hl, is, k, js, hR, hS, rfl⟩ := hR
  exact Lacks.seq (R := R.when c) h h' ⟨is, k, js, ⟨hl, hR⟩, hS, rfl⟩

end

/-! ## Rules -/

theorem unbroken_argument : (argument.when fun l => ¬ l.EndsLine).Unbroken := by
  intro l items m hR t ht
  exact ((yields_argument hR.1 hR.2).mem t ht).lacks_newline

theorem unbroken_arguments : arguments.Unbroken := unbroken_many unbroken_argument

theorem unbroken_trailingComments : trailingComments.Unbroken := by
  refine unbroken_many fun l items m hR => unbroken_argument ⟨?_, hR.2⟩
  exact not_endsLine_of_isComment (isComment_of_atTrailingComment (Classical.not_not.mp hR.1))

theorem unbroken_remnant : remnant.Unbroken :=
  lacks_skip.either (Unbroken.node ((lacks_report _).seq unbroken_arguments) _) _

theorem unbroken_nameWord : nameWord.Unbroken := Unbroken.node (unbroken_word _ _) _

theorem unbroken_name (problem : Problem) : (name problem).Unbroken := unbroken_nameWord.either (lacks_report _) _

theorem unbroken_comment : (comment.when (·.kind.isComment = true)).Unbroken := by
  refine Unbroken.node_when (fun l items m hR => ?_) _
  exact unbroken_argument ⟨not_endsLine_of_isComment hR.1, hR.2⟩

theorem unbroken_blockClose : (blockClose.when (·.kind = .rightBrace)).Unbroken :=
  Unbroken.node_when (Unbroken.seq_when (unbroken_take (fun l hl => by rw [hl]; decide) _) unbroken_arguments) _

theorem unbroken_macroDefinition : macroDefinition.Unbroken :=
  Unbroken.node (((unbroken_word _ _).either (unbroken_word _ _) _).seq ((unbroken_name _).seq unbroken_arguments)) _

theorem unbroken_temporaryDefinition : temporaryDefinition.Unbroken :=
  Unbroken.node ((unbroken_word _ _).seq ((lacks_skip.either (lacks_report _) _).seq
    ((unbroken_nameWord.many _).seq unbroken_trailingComments))) _

theorem unbroken_strayEnd : strayEnd.Unbroken :=
  Unbroken.node ((lacks_report _).seq ((unbroken_word _ _).seq unbroken_trailingComments)) _

theorem unbroken_commandHead : (commandHead.when fun l => ¬ l.EndsLine).Unbroken := by
  intro l items m hR
  obtain ⟨hl, ⟨-, hR⟩ | ⟨-, ⟨-, hR⟩ | ⟨-, hR⟩⟩⟩ := hR
  · exact unbroken_nameWord hR
  · exact unbroken_argument ⟨hl, hR⟩
  · refine Unbroken.node_when (c := fun l => ¬ l.EndsLine) (fun l items m hR => ?_) _ ⟨hl, hR⟩
    obtain ⟨hl, _, _, is, ⟨rfl, hk⟩, hR, rfl⟩ := hR
    have hlacks : ∀ t ∈ Item.trees is, t.Lacks [.newline] := unbroken_argument ⟨hl, hk ▸ hR⟩
    exact hlacks

theorem unbroken_command : (command.when fun l => ¬ l.EndsLine).Unbroken := by
  have hprefixes : (many (fun l => ¬ AtPrefix l) commandPrefix).Unbroken :=
    Lacks.many (Unbroken.node ((unbroken_word _ _).seq (unbroken_eat (by decide) _)) _) _
  refine Unbroken.node_when (fun l items m hR => ?_) _
  obtain ⟨hl, is, k, _, hfront, ⟨js, n, ks, hhead, harguments, rfl⟩, rfl⟩ := hR
  -- behind a prefix stands a word, so the line goes on
  have hk : ¬ k.EndsLine := by
    rcases prefixes_cases hfront with ⟨-, rfl⟩ | hword
    · exact hl
    · exact hword.not_endsLine
  exact Item.forall_trees_append (hprefixes hfront)
    (Item.forall_trees_append (unbroken_commandHead ⟨hk, hhead⟩) (unbroken_arguments harguments))

theorem unbroken_programHead : programHead.Unbroken :=
  (unbroken_word _ _).seq (((unbroken_word _ _).either lacks_skip _).seq ((unbroken_name _).seq unbroken_arguments))

theorem unbroken_mataOpening : mataOpening.Unbroken := (unbroken_word _ _).seq (unbroken_eat (by decide) _)

end Reading

end Dofile
