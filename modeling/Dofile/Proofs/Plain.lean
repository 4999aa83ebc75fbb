import Dofile.Proofs.Regions
import Dofile.Proofs.Shape

/-!
# Plain items

Most rules have nothing to do with programs. Their items hold no program, take no word as an
`end` but that of a mata block, and find nothing that is said of the ends of programs.
-/

namespace Dofile

theorem Lexer.kind_ne_endKeyword (l : Lexer) : l.kind ≠ .endKeyword := by
  intro h
  have hmode : ∀ mode : Mode, Kind.endKeyword ∉ mode.kinds := by
    intro mode
    cases mode <;> decide
  rcases l.kind_cases with hk | hk | hk
  · rw [h] at hk; cases hk
  · rw [h] at hk; cases hk
  · exact hmode l.mode (h ▸ hk)

def Problem.ofPrograms : List Problem := [.missingProgramEnd, .strayEnd]

namespace Item

mutual

def Plain (parent : Kind) : Item → Prop
  | .token _ kind => parent ≠ .mataBlock → kind ≠ .endKeyword
  | .found f => f.problem ∉ Problem.ofPrograms
  | .node kind items => kind.isNode = true ∧ kind ≠ .programDefinition ∧ PlainAll kind items
  | .enclosed kind items => kind.isNode = true ∧ kind ≠ .programDefinition ∧ PlainAll kind items

def PlainAll (parent : Kind) : List Item → Prop
  | [] => True
  | i :: is => i.Plain parent ∧ PlainAll parent is

end

theorem plainAll_append {parent : Kind} {is js : List Item} :
    PlainAll parent (is ++ js) ↔ PlainAll parent is ∧ PlainAll parent js := by
  induction is with
  | nil => simp [PlainAll]
  | cons i is ih => simp [PlainAll, ih, and_assoc]

theorem plainAll_singleton {parent : Kind} {i : Item} : PlainAll parent [i] ↔ i.Plain parent := by
  simp [PlainAll]

theorem PlainAll.findings : ∀ {parent : Kind} (items : List Item), PlainAll parent items →
    ∀ f ∈ findingsAll items, f.problem ∉ Problem.ofPrograms
  | _, [], _, f, hf => by cases hf
  | parent, i :: is, ⟨hi, his⟩, f, hf => by
    rw [findingsAll, List.mem_append] at hf
    rcases hf with hf | hf
    · cases i with
      | token => cases hf
      | found g =>
        rw [List.mem_singleton.mp hf]
        exact hi
      | node kind js => exact PlainAll.findings js hi.2.2 f hf
      | enclosed kind js => exact PlainAll.findings js hi.2.2 f hf
    · exact PlainAll.findings is his f hf

end Item

/-! ## Trees of plain items -/

namespace Tree

def IsPlain : Tree → Prop
  | .leaf .. => True
  | .node kind ts => kind ≠ .programDefinition ∧ (kind ≠ .mataBlock → ∀ t ∈ ts, t.kind ≠ .endKeyword)

end Tree

theorem Kind.ne_endKeyword_of_isNode {kind : Kind} (h : kind.isNode = true) : kind ≠ .endKeyword := by
  intro e
  subst e
  cases h

namespace Item

theorem isPlain_node {kind : Kind} {items : List Item} (hne : kind ≠ .programDefinition)
    (h : ∀ t ∈ trees items, t.All Tree.IsPlain ∧ (kind ≠ .mataBlock → t.kind ≠ .endKeyword)) :
    (Tree.node kind (Script.waiting (scriptsAll items))).All Tree.IsPlain := by
  have hspaced := spaced_waiting items
  refine Tree.all_node ⟨hne, fun hmata => ?_⟩ (hspaced.forall (fun t ht => (h t ht).1) fun _ => trivial)
  exact hspaced.forall (fun t ht => (h t ht).2 hmata) nofun

theorem PlainAll.trees : ∀ {parent : Kind} (items : List Item), PlainAll parent items →
    ∀ t ∈ Item.trees items, t.All Tree.IsPlain ∧ (parent ≠ .mataBlock → t.kind ≠ .endKeyword)
  | _, [], _, t, ht => by cases ht
  | parent, i :: is, ⟨hi, his⟩, t, ht => by
    rw [← List.singleton_append, trees_append, List.mem_append] at ht
    rcases ht with ht | ht
    · cases i with
      | found => cases ht
      | token l kind =>
        rw [trees_token, List.mem_singleton] at ht
        subst ht
        exact ⟨trivial, hi⟩
      | node kind js =>
        rw [trees_node, List.mem_singleton] at ht
        subst ht
        exact ⟨isPlain_node hi.2.1 (PlainAll.trees js hi.2.2), fun _ => Kind.ne_endKeyword_of_isNode hi.1⟩
      | enclosed kind js =>
        rw [trees_enclosed, List.mem_singleton] at ht
        subst ht
        have hinner := isPlain_node hi.2.1 (PlainAll.trees js hi.2.2)
        refine ⟨⟨⟨by decide, fun _ u hu => ?_⟩, hinner, trivial⟩, fun _ h => by cases h⟩
        rw [List.mem_singleton.mp hu]
        exact Kind.ne_endKeyword_of_isNode hi.1
    · exact PlainAll.trees is his t ht

theorem mem_regions {l : Lexer} {items : List Item} {r : Tree × Span} (h : r ∈ regions l items) :
    ∃ t ∈ trees items, ∃ start, r ∈ Place.parts ⟨t, start, []⟩ := by
  have hfrom : ∀ (ts : List Tree) (pos : Nat), r ∈ Place.regionsFrom pos ts →
      ∃ t ∈ ts, ∃ start, r ∈ Place.parts ⟨t, start, []⟩ := by
    intro ts
    induction ts with
    | nil => intro pos h; cases h
    | cons t ts ih =>
      intro pos h
      rw [Place.regionsFrom, Place.partsFrom, List.flatten_cons, List.mem_append] at h
      rcases h with h | h
      · exact ⟨t, by simp, pos, h⟩
      · obtain ⟨u, hu, start, hr⟩ := ih _ h
        exact ⟨u, List.mem_cons_of_mem t hu, start, hr⟩
  obtain ⟨hr, hsolid⟩ := List.mem_filter.mp h
  obtain ⟨t, ht, start, hpart⟩ := hfrom _ _ hr
  rcases Script.mem_forest ht with ht | ⟨blanks, rfl⟩
  · exact ⟨t, ht, start, hpart⟩
  · rw [Place.parts_leaf, List.mem_singleton] at hpart
    subst hpart
    cases hsolid

/-- What holds of all elements of some trees holds of their regions. -/
theorem regions_all {P : Tree → Prop} {l : Lexer} {items : List Item} (h : ∀ t ∈ trees items, t.All P) :
    ∀ r ∈ regions l items, P r.1 := by
  intro r hr
  obtain ⟨t, ht, start, hpart⟩ := mem_regions hr
  obtain ⟨q, hq, rfl⟩ := List.mem_map.mp hpart
  exact (Place.all_elements (p := ⟨t, start, []⟩) (h t ht) q hq).self

end Item

namespace Reading

def Plain (parent : Kind) (R : Reading) : Prop :=
  ∀ ⦃l items l'⦄, R.leads l items l' → Item.PlainAll parent items

section
variable {parent : Kind} {R S : Reading}

theorem plain_take (mode : Mode) : (take mode).Plain parent := by
  intro l items l' h
  obtain ⟨-, rfl, -⟩ := h
  exact Item.plainAll_singleton.mpr fun _ => l.kind_ne_endKeyword

theorem plain_word {kind : Kind} (hk : kind ≠ .endKeyword) (mode : Mode) (hlabel : kind ∈ Kind.wordLabels) :
    (word kind mode hlabel).Plain parent := by
  intro l items l' h
  obtain ⟨-, rfl, -⟩ := h
  exact Item.plainAll_singleton.mpr fun _ => hk

theorem plain_end (mode : Mode) (hlabel : .endKeyword ∈ Kind.wordLabels) :
    (word .endKeyword mode hlabel).Plain .mataBlock := by
  intro l items l' h
  obtain ⟨-, rfl, -⟩ := h
  exact Item.plainAll_singleton.mpr fun hne => absurd rfl hne

theorem plain_relex (mode : Mode) : (relex mode).Plain parent := by
  intro l items l' h
  obtain ⟨rfl, -⟩ := h
  trivial

theorem plain_report {problem : Problem} (hp : problem ∉ Problem.ofPrograms) : (report problem).Plain parent := by
  intro l items l' h
  obtain ⟨rfl, -⟩ := h
  exact Item.plainAll_singleton.mpr hp

theorem plain_skip : skip.Plain parent := by
  intro l items l' h
  obtain ⟨rfl, -⟩ := h
  trivial

theorem Plain.seq (h : R.Plain parent) (h' : S.Plain parent) : (R.seq S).Plain parent := by
  intro l items l' hRS
  obtain ⟨is, m, js, hR, hS, rfl⟩ := hRS
  exact Item.plainAll_append.mpr ⟨h hR, h' hS⟩

theorem Plain.when (h : R.Plain parent) (c : Lexer → Prop) : (R.when c).Plain parent := fun _ _ _ hR => h hR.2

theorem Plain.upTo (h : R.Plain parent) (c : Lexer → Prop) : (R.upTo c).Plain parent := fun _ _ _ hR => h hR.1

theorem Plain.or (h : R.Plain parent) (h' : S.Plain parent) : (R.or S).Plain parent :=
  fun _ _ _ hRS => hRS.elim (h ·) (h' ·)

theorem Plain.either (h : R.Plain parent) (h' : S.Plain parent) (c : Lexer → Prop) : (either c R S).Plain parent :=
  (h.when c).or (h'.when _)

theorem plain_eat (kind : Kind) (mode : Mode) : (eat kind mode).Plain parent := (plain_take mode).either plain_skip _

theorem Plain.any {R : Nat → Reading} (h : ∀ n, (R n).Plain parent) : (any R).Plain parent := by
  intro l items l' hR
  obtain ⟨n, hR⟩ := hR
  exact h n hR

theorem Plain.many (h : R.Plain parent) (stops : Lexer → Prop) : (many stops R).Plain parent := by
  intro l items l' hmany
  induction hmany with
  | done => trivial
  | more _ first _ ih => exact Item.plainAll_append.mpr ⟨h first, ih⟩

theorem Plain.node {kind : Kind} (h : R.Plain kind) (hne : kind ≠ .programDefinition) (hk : kind.isNode = true) :
    (node kind R hk).Plain parent := by
  intro l items l' hR
  obtain ⟨is, hR, rfl⟩ := hR
  exact Item.plainAll_singleton.mpr ⟨hk, hne, h hR⟩

theorem Plain.givenUp {kind : Kind} (h : R.Plain kind) (hne : kind ≠ .programDefinition) {problem : Problem}
    (hp : problem ∉ Problem.ofPrograms) (span : Lexer → Lexer → Span) (hk : kind.isNode = true) :
    (givenUp kind problem span R hk).Plain parent := by
  intro l items l' hR
  obtain ⟨is, hR, -, rfl⟩ := hR
  exact Item.plainAll_singleton.mpr ⟨hk, hne, Item.plainAll_append.mpr ⟨h hR, Item.plainAll_singleton.mpr hp⟩⟩

theorem Plain.delimited {kind : Kind} (h : R.Plain kind) (hne : kind ≠ .programDefinition) {problem : Problem}
    (hp : problem ∉ Problem.ofPrograms) {closer : Kind} (span : Lexer → Lexer → Span) (outer : Mode)
    (hk : kind.isNode = true) : (delimited kind closer problem span outer R hk).Plain parent :=
  (((h.upTo _).seq (plain_take outer)).node hne hk).or
    (((h.upTo _).givenUp hne hp span hk).seq (plain_relex outer))

/-! ## Rules -/

theorem plain_globalMacro (outer : Mode) : (globalMacro outer).Plain parent := by
  have hname : bracedName.Plain .globalMacro :=
    (plain_take _).either ((plain_report (by decide)).either plain_skip _) _
  have hplain : (plainMacro outer).Plain parent :=
    (((plain_take _).upTo _).seq (plain_take _)).node (by decide) _
  have hbraced : (bracedMacro outer).Plain parent :=
    (((plain_take _).upTo _).seq ((plain_take _).seq hname)).delimited (by decide) (by decide) _ _ _
  have hnameless : (namelessMacro outer).Plain parent :=
    (((plain_take _).upTo _).givenUp (by decide) (by decide) _ _).seq (plain_relex _)
  exact (hplain.or (hbraced.or hnameless)).when _

theorem plain_doubleString (outer : Mode) : (doubleString outer).Plain parent := by
  have hitem : stringItem.Plain .doubleString := (plain_globalMacro _).either (plain_take _) _
  exact Plain.when (((plain_take _).seq (hitem.many _)).delimited (by decide) (by decide) _ _ _) _

theorem kindAt_ne_programDefinition (family : Family) (depth : Nat) : family.kindAt depth ≠ .programDefinition := by
  cases family <;> exact fun h => by cases h

theorem plain_constructWith {contents : Family → Nat → Reading}
    (h : ∀ family depth parent, (contents family depth).Plain parent)
    (family : Family) (depth : Nat) (outer : Mode) : (constructWith contents family depth outer).Plain parent :=
  Plain.when (((plain_take _).seq (h family depth _)).delimited (kindAt_ne_programDefinition family depth)
    (by cases family <;> decide) _ _ _) _

theorem plain_contentsTo : ∀ (height : Nat) (family : Family) (depth : Nat) (parent : Kind),
    (contentsTo height family depth).Plain parent
  | 0, _, _, _ => fun _ _ _ h => h.elim
  | height + 1, family, depth, parent => by
    have hnested : ∀ (f : Family) (d : Nat) (m : Mode), (constructWith (contentsTo height) f d m).Plain parent :=
      fun _ _ _ => plain_constructWith (plain_contentsTo height) _ _ _
    have hitem : (contentItem (constructWith (contentsTo height)) family depth).Plain parent :=
      (hnested _ _ _).either ((hnested _ _ _).either ((plain_globalMacro _).either
        ((plain_doubleString _).either (plain_take _) _) _) _) _
    exact hitem.many _

theorem plain_construct (family : Family) (depth : Nat) (outer : Mode) : (construct family depth outer).Plain parent :=
  Plain.any fun height => plain_constructWith (plain_contentsTo height) family depth outer

theorem plain_takeInError {problem : Problem} (hp : problem ∉ Problem.ofPrograms) :
    (takeInError problem).Plain parent :=
  ((plain_report hp).seq (plain_take _)).node (by decide) _

theorem plain_argument : argument.Plain parent :=
  (plain_doubleString _).either ((plain_construct _ _ _).either ((plain_construct _ _ _).either
    ((plain_globalMacro _).either ((plain_takeInError (by decide)).either
      ((plain_takeInError (by decide)).either (plain_take _) _) _) _) _) _) _

theorem plain_arguments : arguments.Plain parent := plain_argument.many _

theorem plain_trailingComments : trailingComments.Plain parent := plain_argument.many _

theorem plain_endOfLine : endOfLine.Plain parent := by
  have hremnant : remnant.Plain parent :=
    plain_skip.either (((plain_report (by decide)).seq plain_arguments).node (by decide) _) _
  exact plain_trailingComments.seq (hremnant.seq (plain_eat _ _))

theorem plain_nameWord : nameWord.Plain parent := (plain_word (by decide) _ _).node (by decide) _

theorem plain_name {problem : Problem} (hp : problem ∉ Problem.ofPrograms) : (name problem).Plain parent :=
  plain_nameWord.either (plain_report hp) _

theorem plain_comment : comment.Plain parent := plain_argument.node (by decide) _

theorem plain_blockClose : blockClose.Plain parent := ((plain_take _).seq plain_arguments).node (by decide) _

theorem plain_macroDefinition : macroDefinition.Plain parent :=
  (((plain_word (by decide) _ _).either (plain_word (by decide) _ _) _).seq
    ((plain_name (by decide)).seq plain_arguments)).node (by decide) _

theorem plain_temporaryDefinition : temporaryDefinition.Plain parent :=
  ((plain_word (by decide) _ _).seq ((plain_skip.either (plain_report (by decide)) _).seq
    ((plain_nameWord.many _).seq plain_trailingComments))).node (by decide) _

theorem plain_command : command.Plain parent := by
  have hfirst : commandPrefix.Plain .command :=
    ((plain_word (by decide) _ _).seq (plain_eat _ _)).node (by decide) _
  have hhead : commandHead.Plain .command :=
    plain_nameWord.either (plain_argument.either
      (((plain_report (by decide)).seq plain_argument).node (by decide) _) _) _
  exact ((hfirst.many _).seq (hhead.seq plain_arguments)).node (by decide) _

theorem plain_mataBlock : mataBlock.Plain parent := by
  have hopening : mataOpening.Plain .mataBlock := (plain_word (by decide) _ _).seq (plain_eat _ _)
  have hbraces : mataBraces.Plain parent :=
    ((hopening.upTo _).seq ((plain_take _).seq (plain_eat _ _))).delimited (by decide) (by decide) _ _ _
  have hmultiline : ((mataOpening.upTo Lexer.EndsLine).seq (many MataEnds (take .mataLine))).Plain .mataBlock :=
    (hopening.upTo _).seq ((plain_take _).many _)
  have hlines : mataLines.Plain parent :=
    ((hmultiline.upTo _).givenUp (by decide) (by decide) _ _).or
      (((hmultiline.upTo _).seq ((plain_end _ _).seq plain_trailingComments)).node (by decide) _)
  have hinline : mataInline.Plain parent := ((hopening.upTo _).seq (plain_take _)).node (by decide) _
  exact hbraces.or (hlines.or hinline)

theorem plain_programHead : programHead.Plain parent :=
  (plain_word (by decide) _ _).seq (((plain_word (by decide) _ _).either plain_skip _).seq
    ((plain_name (by decide)).seq plain_arguments))

end

end Reading

end Dofile
