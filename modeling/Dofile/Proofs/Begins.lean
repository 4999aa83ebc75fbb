import Dofile.Proofs.Shape

/-!
# First words

Whatever statement is read, the first token that it takes is the one ahead. So the tree of a statement
tells by its first leaf what its line began with.
-/

namespace Dofile

def Tree.firstText? (t : Tree) : Option (List Char) := t.leaves.head?.map Tree.text

namespace Item

def BeginWith (text : List Char) (items : List Item) : Prop :=
  ∃ t ts, trees items = t :: ts ∧ t.firstText? = some text

variable {text : List Char} {is : List Item}

theorem beginWith_token (l : Lexer) (kind : Kind) : BeginWith l.ahead.text [.token l kind] := ⟨_, _, rfl, rfl⟩

theorem BeginWith.append (h : BeginWith text is) (js : List Item) : BeginWith text (is ++ js) := by
  obtain ⟨t, ts, htrees, hfirst⟩ := h
  exact ⟨t, ts ++ trees js, by rw [trees_append, htrees]; rfl, hfirst⟩

theorem BeginWith.behind_found (h : BeginWith text is) (f : Finding) : BeginWith text (.found f :: is) := h

theorem BeginWith.over (h : BeginWith text is) (kind : Kind) :
    (Tree.node kind (Script.waiting (scriptsAll is))).firstText? = some text := by
  obtain ⟨t, ts, htrees, hfirst⟩ := h
  obtain ⟨s, ss, hscripts, rfl, -⟩ := List.map_eq_cons_iff.mp htrees
  obtain ⟨leaf, hleaf, htext⟩ := Option.map_eq_some_iff.mp hfirst
  rw [hscripts, Script.waiting, Tree.firstText?, Tree.leaves, Tree.leavesAll, List.head?_append, hleaf]
  exact congrArg some htext

theorem BeginWith.node (h : BeginWith text is) (kind : Kind) : BeginWith text [.node kind is] :=
  ⟨_, _, trees_node kind is, h.over kind⟩

theorem BeginWith.givenUp (h : BeginWith text is) (kind : Kind) (f : Finding) :
    BeginWith text [.enclosed kind (is ++ [.found f])] := by
  refine ⟨_, _, trees_givenUp kind is f, ?_⟩
  have hfirst := h.over kind
  rwa [Tree.firstText?, Tree.leaves, Tree.leavesAll, Tree.leavesAll, List.append_nil]

end Item

namespace Reading

def Begins (R : Reading) : Prop := ∀ ⦃l items l'⦄, R.leads l items l' → Item.BeginWith l.ahead.text items

section
variable {R S : Reading}

theorem begins_take (mode : Mode) : (take mode).Begins := by
  intro l items l' h
  obtain ⟨-, rfl, -⟩ := h
  exact Item.beginWith_token l l.kind

theorem begins_word (kind : Kind) (mode : Mode) (hlabel : kind ∈ Kind.wordLabels) : (word kind mode hlabel).Begins := by
  intro l items l' h
  obtain ⟨-, rfl, -⟩ := h
  exact Item.beginWith_token l kind

theorem Begins.seq (h : R.Begins) (S : Reading) : (R.seq S).Begins := by
  intro l items l' hRS
  obtain ⟨is, m, js, hR, -, rfl⟩ := hRS
  exact (h hR).append js

theorem Begins.report_seq (h : S.Begins) (problem : Problem) : ((report problem).seq S).Begins := by
  intro l items l' hRS
  obtain ⟨_, m, js, ⟨rfl, rfl⟩, hS, rfl⟩ := hRS
  exact (h hS).behind_found _

theorem Begins.when (h : R.Begins) (c : Lexer → Prop) : (R.when c).Begins := fun _ _ _ hR => h hR.2

theorem Begins.upTo (h : R.Begins) (c : Lexer → Prop) : (R.upTo c).Begins := fun _ _ _ hR => h hR.1

theorem Begins.or (h : R.Begins) (h' : S.Begins) : (R.or S).Begins := fun _ _ _ hRS => hRS.elim (h ·) (h' ·)

theorem Begins.either (h : R.Begins) (h' : S.Begins) (c : Lexer → Prop) : (either c R S).Begins :=
  (h.when c).or (h'.when _)

theorem Begins.any {R : Nat → Reading} (h : ∀ n, (R n).Begins) : (any R).Begins := fun _ _ _ ⟨n, hR⟩ => h n hR

/-- A repetition may be empty, and then it is what follows that begins. -/
theorem Begins.many_seq (h : R.Begins) (h' : S.Begins) (stops : Lexer → Prop) : ((many stops R).seq S).Begins := by
  intro l items l' hRS
  obtain ⟨_, m, js, hmany, hS, rfl⟩ := hRS
  cases hmany with
  | done => exact h' hS
  | more _ first rest => exact ((h first).append _).append js

theorem Begins.node (h : R.Begins) {kind : Kind} (hk : kind.isNode = true) : (node kind R hk).Begins := by
  intro l items l' hR
  obtain ⟨is, hR, rfl⟩ := hR
  exact (h hR).node kind

theorem Begins.givenUp (h : R.Begins) {kind : Kind} (problem : Problem) (span : Lexer → Lexer → Span)
    (hk : kind.isNode = true) : (givenUp kind problem span R hk).Begins := by
  intro l items l' hR
  obtain ⟨is, hR, -, rfl⟩ := hR
  exact (h hR).givenUp kind _

theorem Begins.delimited (h : R.Begins) {kind closer : Kind} {problem : Problem} {span : Lexer → Lexer → Span}
    {outer : Mode} (hk : kind.isNode = true) : (delimited kind closer problem span outer R hk).Begins :=
  (((h.upTo _).seq _).node hk).or (((h.upTo _).givenUp problem span hk).seq _)

theorem Begins.ended (h : R.Begins) {kind : Kind} {problem : Problem} (hk : kind.isNode = true) :
    (ended kind problem R hk).Begins :=
  ((h.upTo _).givenUp problem _ hk).or (((h.upTo _).seq _).node hk)

end

/-! ## Arguments -/

theorem begins_globalMacro (outer : Mode) : (globalMacro outer).Begins :=
  Begins.when (((((begins_take _).upTo _).seq _).node _).or
    ((((begins_take _).upTo _).seq _).delimited _ |>.or ((((begins_take _).upTo _).givenUp _ _ _).seq _))) _

theorem begins_doubleString (outer : Mode) : (doubleString outer).Begins :=
  Begins.when (((begins_take _).seq _).delimited _) _

theorem begins_construct (family : Family) (depth : Nat) (outer : Mode) : (construct family depth outer).Begins :=
  Begins.any fun _ => Begins.when (((begins_take _).seq _).delimited _) _

theorem begins_takeInError (problem : Problem) : (takeInError problem).Begins :=
  ((begins_take _).report_seq problem).node _

theorem begins_argument : argument.Begins :=
  (begins_doubleString _).either ((begins_construct _ _ _).either ((begins_construct _ _ _).either
    ((begins_globalMacro _).either ((begins_takeInError _).either
      ((begins_takeInError _).either (begins_take _) _) _) _) _) _) _

/-! ## Statements -/

theorem begins_comment : comment.Begins := begins_argument.node _

theorem begins_command : command.Begins := by
  have hname : nameWord.Begins := (begins_word _ _ _).node _
  have hhead : commandHead.Begins :=
    hname.either (begins_argument.either ((begins_argument.report_seq _).node _) _) _
  have hfront : commandPrefix.Begins := ((begins_word _ _ _).seq _).node _
  exact (hfront.many_seq (hhead.seq _) _).node _

theorem begins_mataBlock : mataBlock.Begins := by
  have hopening : mataOpening.Begins := (begins_word _ _ _).seq _
  exact (((hopening.upTo _).seq _).delimited _).or
    ((((hopening.upTo _).seq _).ended _).or (((hopening.upTo _).seq _).node _))

theorem begins_programDefinition (line : Reading) : (programDefinition line).Begins :=
  (((begins_word _ _ _).seq _).seq _).ended _

theorem begins_statement (line : Reading) : (statement line).Begins := by
  have hdefinition : macroDefinition.Begins := (((begins_word _ _ _).either (begins_word _ _ _) _).seq _).node _
  have htemporary : temporaryDefinition.Begins := ((begins_word _ _ _).seq _).node _
  have hstray : strayEnd.Begins := (((begins_word _ _ _).seq _).report_seq _).node _
  have hclose : blockClose.Begins := ((begins_take _).seq _).node _
  exact begins_comment.either (hclose.either ((begins_programDefinition line).either (begins_mataBlock.either
    (hdefinition.either (htemporary.either (hstray.either begins_command _) _) _) _) _) _) _

end Reading

end Dofile
