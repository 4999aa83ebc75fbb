import Dofile.Proofs.Errors
import Dofile.Proofs.Lacks
import Dofile.Proofs.Reports

/-!
# Names of commands

Where a command lacks its name, what is found there stands where the command begins, which has no prefixes then.
Commands hold no commands, so it is the only one there.
-/

namespace Dofile

namespace Tree

def HoldsNoCommand (t : Tree) : Prop := t.kind = .command → ∀ c ∈ t.children, c.Lacks [.command]

theorem holdsNoCommand_of_lacks {t : Tree} (h : t.Lacks [.command]) : t.All HoldsNoCommand :=
  All.imp (fun _ hu hk => absurd (List.mem_singleton.mpr hk) hu.self) t h

end Tree

def Finding.missesCommandName (f : Finding) : Bool := f.problem == .expectedCommandName

structure Finding.BeginsCommand (f : Finding) (r : Tree × Span) : Prop where
  node : r.1.isLeaf = false
  kind : r.1.kind = .command
  start : r.2.start = f.span.start
  stop : f.span.start < r.2.stop
  bare : ∀ c ∈ r.1.children, c.kind ≠ .commandPrefix

open Item in
/-- Items with the commands in them, each missing name of which is found at a command of its own. -/
structure Commands (l : Lexer) (items : List Item) (m : Lexer) : Prop where
  account : Account l items m
  found : ∀ f ∈ findingsAll items, f.missesCommandName = true → ∃ r ∈ regions l items, f.BeginsCommand r
  flat : ∀ t ∈ trees items, t.All Tree.HoldsNoCommand

namespace Commands

variable {l m m' : Lexer} {is js : List Item}

theorem nil (l : Lexer) : Commands l [] l := ⟨.skip l, fun _ hf => (by cases hf), fun _ ht => (by cases ht)⟩

theorem token {kind : Kind} (h : Account l [.token l kind] m) : Commands l [.token l kind] m := by
  refine ⟨h, fun _ hf => (by cases hf), fun t ht => ?_⟩
  rw [Item.trees_token, List.mem_singleton] at ht
  subst ht
  exact fun _ c hc => by cases hc

theorem report {f : Finding} (hf : f.span.start ≤ f.span.stop) (hmisses : f.missesCommandName = false) :
    Commands l [.found f] l := by
  refine ⟨.found l hf, fun g hg h => ?_, fun _ ht => by cases ht⟩
  rw [List.mem_singleton.mp hg, hmisses] at h
  cases h

theorem append (h : Commands l is m) (h' : Commands m js m') : Commands l (is ++ js) m' where
  account := h.account.append h'.account
  found f hf hmisses := by
    rw [Item.regions_append h.account]
    rw [Item.findingsAll_append, List.mem_append] at hf
    rcases hf with hf | hf
    · obtain ⟨r, hr, hbegins⟩ := h.found f hf hmisses
      exact ⟨r, List.mem_append_left _ hr, hbegins⟩
    · obtain ⟨r, hr, hbegins⟩ := h'.found f hf hmisses
      exact ⟨r, List.mem_append_right _ hr, hbegins⟩
  flat := Item.forall_trees_append h.flat h'.flat

theorem relex (h : Commands l is m) (mode : Mode) : Commands l is (m.relex mode) := by
  simpa using h.append ⟨.relex m mode, fun _ hf => (by cases hf), fun _ ht => (by cases ht)⟩

theorem flat_over (h : Commands l is m) {kind : Kind} (hne : kind ≠ .command) :
    (Tree.node kind (Script.waiting (Item.scriptsAll is))).All Tree.HoldsNoCommand :=
  Tree.all_node (fun hk => absurd hk hne)
    ((Item.spaced_waiting is).forall h.flat fun _ _ c hc => by cases hc)

theorem node (h : Commands l is m) {kind : Kind} (hk : kind.isNode = true) (hne : kind ≠ .command) :
    Commands l [.node kind is] m where
  account := .node hk h.account
  found f hf hmisses := by
    rw [Item.findingsAll_node] at hf
    obtain ⟨r, hr, hbegins⟩ := h.found f hf hmisses
    rw [Item.regions_node h.account (ne_whitespace_of_isNode hk)]
    exact ⟨r, List.mem_cons_of_mem _ hr, hbegins⟩
  flat t ht := by
    rw [Item.trees_node, List.mem_singleton] at ht
    exact ht ▸ h.flat_over hne

theorem givenUp (h : Commands l is m) {kind : Kind} (hk : kind.isNode = true) (hne : kind ≠ .command) {f : Finding}
    (hf : f.span.start ≤ f.span.stop) (hmisses : f.missesCommandName = false) :
    Commands l [.enclosed kind (is ++ [.found f])] m where
  account := .enclosed hk (h.account.append (.found m hf))
  found g hg hg' := by
    rw [Item.findingsAll_givenUp, List.mem_append, List.mem_singleton] at hg
    obtain hg := hg.resolve_right fun e => by rw [e, hmisses] at hg'; cases hg'
    obtain ⟨r, hr, hbegins⟩ := h.found g hg hg'
    rw [Item.regions_givenUp h.account (ne_whitespace_of_isNode hk)]
    exact ⟨r, List.mem_cons_of_mem _ (List.mem_cons_of_mem _ hr), hbegins⟩
  flat t ht := by
    rw [Item.trees_givenUp, List.mem_singleton] at ht
    subst ht
    exact ⟨fun hk => (by cases hk), h.flat_over hne, trivial⟩

/-- Where there are no commands, none lacks its name. -/
theorem named (h : Commands l is m) (hlacks : ∀ t ∈ Item.trees is, t.Lacks [.command]) :
    ∀ f ∈ Item.findingsAll is, ¬ f.missesCommandName = true := by
  intro f hf hmisses
  obtain ⟨r, hr, hbegins⟩ := h.found f hf hmisses
  exact absurd (List.mem_singleton.mpr hbegins.kind) (Item.regions_all hlacks r hr)

theorem command (h : Account l is m) (hlacks : ∀ t ∈ Item.trees is, t.Lacks [.command])
    (hfound : ∀ f ∈ Item.findingsAll is, f.missesCommandName = true →
      Item.startOf l is = f.span.start ∧ f.span.start < m.offset ∧ ∀ t ∈ Item.trees is, t.kind ≠ .commandPrefix) :
    Commands l [.node .command is] m where
  account := .node (by decide) h
  found f hf hmisses := by
    rw [Item.findingsAll_node] at hf
    obtain ⟨hstart, hstop, hbare⟩ := hfound f hf hmisses
    rw [Item.regions_node h (by decide)]
    exact ⟨_, List.mem_cons_self, rfl, rfl, hstart, hstop, (Item.spaced_waiting is).forall hbare nofun⟩
  flat t ht := by
    rw [Item.trees_node, List.mem_singleton] at ht
    subst ht
    have hspaced := Item.spaced_waiting is
    have hblank : Kind.whitespace ∉ [Kind.command] := by decide
    exact Tree.all_node (fun _ => hspaced.forall hlacks fun _ => hblank)
      (hspaced.forall (fun t ht => Tree.holdsNoCommand_of_lacks (hlacks t ht)) fun _ _ c hc => by cases hc)

end Commands

/-! ## Readings -/

namespace Reading

def KeepsCommands (R : Reading) : Prop := ∀ ⦃l items m⦄, R.leads l items m → Commands l items m

section
variable {R S : Reading}

theorem keepsCommands_take (mode : Mode) : (take mode).KeepsCommands := by
  intro l items m h
  obtain ⟨he, rfl, rfl⟩ := h
  exact .token (.take he mode)

theorem keepsCommands_word {kind : Kind} (mode : Mode) (hlabel : kind ∈ Kind.wordLabels) :
    (word kind mode hlabel).KeepsCommands := by
  intro l items m h
  obtain ⟨hword, rfl, rfl⟩ := h
  exact .token (.word hword hlabel mode)

theorem keepsCommands_skip : skip.KeepsCommands := by
  intro _ _ l h
  obtain ⟨rfl, rfl⟩ := h
  exact .nil l

theorem keepsCommands_relex (mode : Mode) : (relex mode).KeepsCommands := by
  intro l items m h
  obtain ⟨rfl, rfl⟩ := h
  exact (Commands.nil l).relex mode

theorem keepsCommands_report {problem : Problem} (hp : problem ≠ .expectedCommandName) :
    (report problem).KeepsCommands := by
  intro _ _ l h
  obtain ⟨rfl, rfl⟩ := h
  exact .report (span_ordered l) (beq_eq_false_iff_ne.mpr hp)

theorem KeepsCommands.seq (h : R.KeepsCommands) (h' : S.KeepsCommands) : (R.seq S).KeepsCommands := by
  intro l items m hRS
  obtain ⟨is, k, js, hR, hS, rfl⟩ := hRS
  exact (h hR).append (h' hS)

theorem KeepsCommands.when (h : R.KeepsCommands) (c : Lexer → Prop) : (R.when c).KeepsCommands :=
  fun _ _ _ hR => h hR.2

theorem KeepsCommands.upTo (h : R.KeepsCommands) (c : Lexer → Prop) : (R.upTo c).KeepsCommands :=
  fun _ _ _ hR => h hR.1

theorem KeepsCommands.or (h : R.KeepsCommands) (h' : S.KeepsCommands) : (R.or S).KeepsCommands :=
  fun _ _ _ hRS => hRS.elim (h ·) (h' ·)

theorem KeepsCommands.either (h : R.KeepsCommands) (h' : S.KeepsCommands) (c : Lexer → Prop) :
    (either c R S).KeepsCommands := (h.when c).or (h'.when _)

theorem keepsCommands_eat (kind : Kind) (mode : Mode) : (eat kind mode).KeepsCommands :=
  (keepsCommands_take mode).either keepsCommands_skip _

theorem KeepsCommands.any {R : Nat → Reading} (h : ∀ n, (R n).KeepsCommands) : (any R).KeepsCommands := by
  intro l items m hR
  obtain ⟨n, hR⟩ := hR
  exact h n hR

theorem KeepsCommands.many (h : R.KeepsCommands) (stops : Lexer → Prop) : (many stops R).KeepsCommands := by
  intro l items m hmany
  induction hmany with
  | done => exact .nil _
  | more _ first _ ih => exact (h first).append ih

section
variable {kind closer : Kind} {problem : Problem} {hk : kind.isNode = true} (h : R.KeepsCommands)
  (hne : kind ≠ .command)
include h hne

theorem KeepsCommands.node : (node kind R hk).KeepsCommands := by
  intro l items m hR
  obtain ⟨is, hR, rfl⟩ := hR
  exact (h hR).node hk hne

theorem KeepsCommands.givenUp (hp : problem ≠ .expectedCommandName) (span : Lexer → Lexer → Span) :
    (givenUp kind problem span R hk).KeepsCommands := by
  intro l items m hR
  obtain ⟨is, hR, hspan, rfl⟩ := hR
  exact (h hR).givenUp hk hne hspan (beq_eq_false_iff_ne.mpr hp)

theorem KeepsCommands.delimited (hp : problem ≠ .expectedCommandName) (span : Lexer → Lexer → Span) (outer : Mode) :
    (delimited kind closer problem span outer R hk).KeepsCommands :=
  (((h.upTo _).seq (keepsCommands_take outer)).node hne).or
    (((h.upTo _).givenUp hne hp span).seq (keepsCommands_relex outer))

end

end

/-! ## Arguments -/

theorem keepsCommands_globalMacro (outer : Mode) : (globalMacro outer).KeepsCommands := by
  have hname : bracedName.KeepsCommands :=
    (keepsCommands_take _).either ((keepsCommands_report (by decide)).either keepsCommands_skip _) _
  have hplain : (plainMacro outer).KeepsCommands :=
    (((keepsCommands_take _).upTo _).seq (keepsCommands_take _)).node (by decide)
  have hbraced : (bracedMacro outer).KeepsCommands :=
    (((keepsCommands_take _).upTo _).seq ((keepsCommands_take _).seq hname)).delimited (by decide) (by decide) _ _
  have hnameless : (namelessMacro outer).KeepsCommands :=
    (((keepsCommands_take _).upTo _).givenUp (by decide) (by decide) _).seq (keepsCommands_relex _)
  exact (hplain.or (hbraced.or hnameless)).when _

theorem keepsCommands_doubleString (outer : Mode) : (doubleString outer).KeepsCommands := by
  have hitem : stringItem.KeepsCommands := (keepsCommands_globalMacro _).either (keepsCommands_take _) _
  exact KeepsCommands.when (((keepsCommands_take _).seq (hitem.many _)).delimited (by decide) (by decide) _ _) _

theorem keepsCommands_constructWith {contents : Family → Nat → Reading}
    (h : ∀ family depth, (contents family depth).KeepsCommands) (family : Family) (depth : Nat) (outer : Mode) :
    (constructWith contents family depth outer).KeepsCommands :=
  KeepsCommands.when (((keepsCommands_take _).seq (h family depth)).delimited (by cases family <;> nofun)
    (by cases family <;> decide) _ _) _

theorem keepsCommands_contentsTo : ∀ (height : Nat) (family : Family) (depth : Nat),
    (contentsTo height family depth).KeepsCommands
  | 0, _, _ => fun _ _ _ h => h.elim
  | height + 1, family, depth => by
    have hnested := keepsCommands_constructWith (keepsCommands_contentsTo height)
    have hitem : (contentItem (constructWith (contentsTo height)) family depth).KeepsCommands :=
      (hnested _ _ _).either ((hnested _ _ _).either ((keepsCommands_globalMacro _).either
        ((keepsCommands_doubleString _).either (keepsCommands_take _) _) _) _) _
    exact hitem.many _

theorem keepsCommands_construct (family : Family) (depth : Nat) (outer : Mode) :
    (construct family depth outer).KeepsCommands :=
  .any fun height => keepsCommands_constructWith (keepsCommands_contentsTo height) family depth outer

theorem keepsCommands_takeInError {problem : Problem} (hp : problem ≠ .expectedCommandName) :
    (takeInError problem).KeepsCommands :=
  ((keepsCommands_report hp).seq (keepsCommands_take _)).node (by decide)

theorem keepsCommands_argument : argument.KeepsCommands :=
  (keepsCommands_doubleString _).either ((keepsCommands_construct _ _ _).either ((keepsCommands_construct _ _ _).either
    ((keepsCommands_globalMacro _).either ((keepsCommands_takeInError (by decide)).either
      ((keepsCommands_takeInError (by decide)).either (keepsCommands_take _) _) _) _) _) _) _

theorem keepsCommands_arguments : arguments.KeepsCommands := keepsCommands_argument.many _

theorem keepsCommands_trailingComments : trailingComments.KeepsCommands := keepsCommands_argument.many _

theorem keepsCommands_endOfLine : endOfLine.KeepsCommands := by
  have hremnant : remnant.KeepsCommands :=
    keepsCommands_skip.either (((keepsCommands_report (by decide)).seq keepsCommands_arguments).node (by decide)) _
  exact keepsCommands_trailingComments.seq (hremnant.seq (keepsCommands_eat _ _))

theorem keepsCommands_nameWord : nameWord.KeepsCommands := (keepsCommands_word _ _).node (by decide)

theorem keepsCommands_name {problem : Problem} (hp : problem ≠ .expectedCommandName) : (name problem).KeepsCommands :=
  keepsCommands_nameWord.either (keepsCommands_report hp) _

theorem ne_eof_of_argument {l m : Lexer} {items : List Item} (h : argument.leads l items m) : l.kind ≠ .eof := by
  intro he
  rcases argument_cases h (by rw [he]; decide) with ⟨_, _, ⟨_, _, _, ⟨-, rfl⟩, ⟨hne, -⟩, -⟩, -⟩ | ⟨-, hne, -⟩
  · exact hne he
  · exact hne he

/-! ## Statements -/

theorem KeepsCommands.ended {R : Reading} (h : R.KeepsCommands) {kind : Kind} {problem : Problem}
    {hk : kind.isNode = true} (hne : kind ≠ .command) (hp : problem ≠ .expectedCommandName) : (ended kind problem R hk).KeepsCommands :=
  ((h.upTo _).givenUp hne hp _).or
    (((h.upTo _).seq ((keepsCommands_word _ _).seq keepsCommands_trailingComments)).node hne)

theorem keepsCommands_comment : comment.KeepsCommands := keepsCommands_argument.node (by decide)

theorem keepsCommands_blockClose : blockClose.KeepsCommands :=
  ((keepsCommands_take _).seq keepsCommands_arguments).node (by decide)

theorem keepsCommands_macroDefinition : macroDefinition.KeepsCommands :=
  (((keepsCommands_word _ _).either (keepsCommands_word _ _) _).seq
    ((keepsCommands_name (by decide)).seq keepsCommands_arguments)).node (by decide)

theorem keepsCommands_temporaryDefinition : temporaryDefinition.KeepsCommands :=
  ((keepsCommands_word _ _).seq ((keepsCommands_skip.either (keepsCommands_report (by decide)) _).seq
    ((keepsCommands_nameWord.many _).seq keepsCommands_trailingComments))).node (by decide)

theorem keepsCommands_strayEnd : strayEnd.KeepsCommands :=
  ((keepsCommands_report (by decide)).seq
    ((keepsCommands_word _ _).seq keepsCommands_trailingComments)).node (by decide)

theorem keepsCommands_commandPrefix : commandPrefix.KeepsCommands :=
  ((keepsCommands_word _ _).seq (keepsCommands_eat _ _)).node (by decide)

theorem isStatement_command : ∀ kind ∈ [Kind.command], Typed.isStatement kind = true := by decide

/-- The head of a command misses a name where no word is ahead, and it is a problem node then. -/
theorem unnamed_commandHead {l m : Lexer} {items : List Item} (h : commandHead.leads l items m) {f : Finding}
    (hf : f ∈ Item.findingsAll items) (hmisses : f.missesCommandName = true) :
    ¬ l.IsWord ∧ l.kind ≠ .eof ∧ f.span = l.ahead.span ∧ ∀ t ∈ Item.trees items, t.kind = .error := by
  rcases h with ⟨-, h⟩ | ⟨hword, ⟨-, h⟩ | ⟨-, _, ⟨_, _, is, ⟨rfl, rfl⟩, h, rfl⟩, rfl⟩⟩
  · exact absurd hmisses ((keepsCommands_nameWord h).named (lacks_nameWord isStatement_command h) f hf)
  · exact absurd hmisses ((keepsCommands_argument h).named (lacks_argument isStatement_command h) f hf)
  · refine ⟨hword, ne_eof_of_argument h, ?_, fun t ht => ?_⟩
    · rw [Item.findingsAll_node] at hf
      rcases List.mem_cons.mp hf with rfl | hf
      · rfl
      · exact absurd hmisses ((keepsCommands_argument h).named (lacks_argument isStatement_command h) f hf)
    · rw [Item.trees_node, List.mem_singleton] at ht
      rw [ht]
      rfl

/-- A command misses its name at its head, so it has no prefixes, behind which there is a word. -/
theorem unnamed_command {l k n m : Lexer} {ps hs as : List Item}
    (hfront : (many (fun l => ¬ AtPrefix l) commandPrefix).leads l ps k) (hhead : commandHead.leads k hs n)
    (harguments : arguments.leads n as m) {f : Finding} (hf : f ∈ Item.findingsAll (ps ++ (hs ++ as)))
    (hmisses : f.missesCommandName = true) :
    ps = [] ∧ k = l ∧ k.kind ≠ .eof ∧ f.span = k.ahead.span ∧ ∀ t ∈ Item.trees hs, t.kind = .error := by
  have hprefixes := (keepsCommands_commandPrefix.many _ hfront).named
    ((lacks_commandPrefix isStatement_command).many _ hfront)
  have hothers := (keepsCommands_arguments harguments).named (lacks_arguments isStatement_command harguments)
  have hf : f ∈ Item.findingsAll hs := by
    rw [Item.findingsAll_append, Item.findingsAll_append, List.mem_append, List.mem_append] at hf
    rcases hf with hf | hf | hf
    · exact absurd hmisses (hprefixes f hf)
    · exact hf
    · exact absurd hmisses (hothers f hf)
  obtain ⟨hword, he, hspan, hkind⟩ := unnamed_commandHead hhead hf hmisses
  obtain ⟨hnil, hl⟩ := (prefixes_cases hfront).resolve_right hword
  exact ⟨hnil, hl, he, hspan, hkind⟩

theorem keepsCommands_command : command.KeepsCommands := by
  intro l items m h
  obtain ⟨_, hinside, rfl⟩ := h
  have haccount := Reading.account _ hinside
  obtain ⟨ps, k, _, hfront, ⟨hs, n, as, hhead, harguments, rfl⟩, rfl⟩ := hinside
  have hlacks : ∀ t ∈ Item.trees (ps ++ (hs ++ as)), t.Lacks [.command] :=
    Item.forall_trees_append ((lacks_commandPrefix isStatement_command).many _ hfront)
      (Item.forall_trees_append (lacks_commandHead isStatement_command hhead)
        (lacks_arguments isStatement_command harguments))
  refine .command haccount hlacks fun f hf hmisses => ?_
  obtain ⟨rfl, rfl, he, hspan, hkind⟩ := unnamed_command hfront hhead harguments hf hmisses
  have hderived := (derives_commandHead (p := fun _ => True) trivial hhead).append
    (derives_arguments (p := fun _ => True) trivial harguments)
  have hmoves : m.rest.length < k.rest.length :=
    Nat.lt_of_le_of_lt (arguments.account harguments).rest_le (moves_commandHead hhead)
  obtain ⟨hstart, hstop⟩ := hderived.startOf_eq hmoves
  rw [List.nil_append, hspan]
  refine ⟨hstart, Nat.lt_of_lt_of_le (Lexer.start_lt_stop he) hstop,
    Item.forall_trees_append (fun t ht => ?_) fun t ht he => ?_⟩
  · rw [hkind t ht]
    decide
  · have hargument := (yields_arguments (c := fun _ => True) trivial harguments).mem t ht
    have hreserved := Form.IsArgument.isReserved hargument
    rw [he] at hreserved
    cases hreserved

theorem keepsCommands_mataBlock : mataBlock.KeepsCommands := by
  have hopening : mataOpening.KeepsCommands := (keepsCommands_word _ _).seq (keepsCommands_eat _ _)
  have hbraces : mataBraces.KeepsCommands :=
    ((hopening.upTo _).seq ((keepsCommands_take _).seq (keepsCommands_eat _ _))).delimited (by decide) (by decide) _ _
  have hlines : mataLines.KeepsCommands :=
    ((hopening.upTo _).seq ((keepsCommands_take _).many _)).ended (by decide) (by decide)
  have hinline : mataInline.KeepsCommands := ((hopening.upTo _).seq (keepsCommands_take _)).node (by decide)
  exact hbraces.or (hlines.or hinline)

/-! ## Lines -/

theorem keepsCommands_programHead : programHead.KeepsCommands :=
  (keepsCommands_word _ _).seq (((keepsCommands_word _ _).either keepsCommands_skip _).seq
    ((keepsCommands_name (by decide)).seq keepsCommands_arguments))

section
variable {line : Reading} (h : line.KeepsCommands)
include h

theorem keepsCommands_statement : (statement line).KeepsCommands := by
  have hprogram : (programDefinition line).KeepsCommands :=
    (keepsCommands_programHead.seq (h.many _)).ended (by decide) (by decide)
  exact keepsCommands_comment.either (keepsCommands_blockClose.either (hprogram.either
    (keepsCommands_mataBlock.either (keepsCommands_macroDefinition.either (keepsCommands_temporaryDefinition.either
      (keepsCommands_strayEnd.either keepsCommands_command _) _) _) _) _) _) _

theorem keepsCommands_lineWith : (lineWith line).KeepsCommands := by
  have hline : (fullLine line).KeepsCommands :=
    (keepsCommands_comment.many _).seq ((keepsCommands_skip.either (keepsCommands_statement h) _).seq
      keepsCommands_endOfLine)
  exact ((keepsCommands_take _).either hline _).when _

end

theorem keepsCommands_line : ∀ depth : Nat, (line depth).KeepsCommands
  | 0 => fun _ _ _ h => h.elim
  | depth + 1 => keepsCommands_lineWith (keepsCommands_line depth)

theorem keepsCommands_lines (depth : Nat) : (lines depth).KeepsCommands := (keepsCommands_line depth).many _

end Reading

/-! ## The whole text -/

/-- Two commands at one offset are the same, for neither lies within the other. -/
theorem Place.eq_of_commands {root n q : Place} (hflat : root.tree.All Tree.HoldsNoCommand) (hn : n ∈ root.elements)
    (hq : q ∈ root.elements) (hkind : n.kind = .command) (hkind' : q.kind = .command) {i : Nat}
    (hstart : n.start ≤ i ∧ i < n.stop) (hstart' : q.start ≤ i ∧ i < q.stop) : n = q := by
  have hinside : ∀ {n q : Place}, q ∈ root.elements → n.kind = .command → q.kind = .command → n ∈ q.elements →
      n = q := by
    intro n q hq hn hkind hmem
    rcases mem_elements_iff.mp hmem with rfl | ⟨c, hc, hmem⟩
    · rfl
    · have hlacks := (all_elements hflat q hq).self hkind c.tree (tree_mem_children hc)
      exact absurd (List.mem_singleton.mpr hn) (all_elements hlacks n hmem).self
  rcases nested_or_apart hn hq with h | h | h | h
  · exact (hinside hn hkind' hkind h).symm
  · exact hinside hq hkind hkind' h
  · omega
  · omega

namespace Parse

theorem holdsNoCommand {text : List Char} (hsize : byteSize text ≤ maxOffset) :
    (ofText text).root.tree.All Tree.HoldsNoCommand := by
  obtain ⟨items, l, h⟩ := Reading.exists_lines text
  have hflat := (Reading.keepsCommands_lines _ h).flat
  have hleaf : ∀ kind word, (Tree.leaf kind word).All Tree.HoldsNoCommand := fun _ _ _ c hc => by cases hc
  have hroot := tree_of_lines h hsize
  rw [hroot]
  refine Tree.all_node (fun hk => by cases hk) fun t ht => ?_
  have hchild : t ∈ (ofText text).root.tree.children := by rwa [hroot]
  rcases child_cases h hsize hchild with ht | ⟨kind, word, rfl⟩
  · exact hflat t ht
  · exact hleaf kind word

theorem exists_unnamed {text : List Char} (hsize : byteSize text ≤ maxOffset) {d : Diagnostic}
    (hd : d ∈ (ofText text).diagnostics) (hmessage : d.message = "expected a command name") :
    ∃ f : Finding, f.span = d.span ∧ ∃ q ∈ (ofText text).root.elements, f.BeginsCommand q.region := by
  obtain ⟨items, l, h⟩ := Reading.exists_lines text
  obtain ⟨f, hf, hproblem, hspan⟩ := exists_finding hd .expectedCommandName hmessage
  rw [ofText_eq h hsize] at hf
  obtain ⟨r, hr, hbegins⟩ := (Reading.keepsCommands_lines _ h).found f hf (beq_iff_eq.mpr hproblem)
  obtain ⟨q, hq, rfl⟩ := exists_of_region h hsize hr
  exact ⟨f, hspan, q, hq, hbegins⟩

theorem next_of_prefix {text : List Char} (hsize : byteSize text ≤ maxOffset) {q : Place}
    (hq : q ∈ (ofText text).root.nodes) (hkind : q.kind = .command) {before after : List Place} {x : Place}
    (hrow : q.contents = before ++ x :: after) (hx : x.kind = .commandPrefix) :
    ∃ y rest, after = y :: rest ∧ (y.kind = .commandPrefix ∨ q.contents.filter (·.kind == .name) = [y]) := by
  obtain ⟨helement, hnode⟩ := Place.mem_nodes_iff.mp hq
  have hform := Place.contents_mem_form (shaped hsize q helement).self hnode
  rw [hkind, ← Place.map_tree_contents] at hform
  obtain ⟨prefixes, name?, others, hparts, hname⟩ := Typed.exists_isRow hform
  obtain ⟨y, rest, hafter, hy⟩ := hparts.next_of_prefix hname hrow hx
  refine ⟨y, rest, hafter, hy.imp_right fun hy => ?_⟩
  rw [hparts.filter_name, hy]
  rfl

/-- What the rules see ahead in the text are the tokens there, whatever the word is behind which they look. So behind
the prefixes of a command comes its name, and a command that lacks its name has no prefixes. -/
theorem lookahead_tokens {text : List Char} (hsize : byteSize text ≤ maxOffset) :
    let words : List Kind := [.ident, .builtinVariable, .controlKeyword, .typeKeyword]
    let p := ofText text
    (∀ l : Lexer, let next := l.next .statement
      (Grammar.prefixApplies l.after = true ↔
        next.kind ∈ words ∨ next.kind = .colon ∧ (next.next .statement).kind ∈ words) ∧
      (Grammar.atProgramSubcommand l.after = true ↔
        next.kind ∈ words ∧ next.ahead.text ∈ ["drop".toList, "dir".toList, "list".toList])) ∧
    (∀ q ∈ p.root.nodes, q.kind = .command → ∀ before x after, q.contents = before ++ x :: after →
      x.kind = .commandPrefix →
        ∃ y rest, after = y :: rest ∧ (y.kind = .commandPrefix ∨ q.contents.filter (·.kind == .name) = [y])) ∧
    ∀ d ∈ p.diagnostics, d.message = "expected a command name" →
      ∃ q ∈ p.root.nodes, q.kind = .command ∧ q.start = d.span.start ∧ (∀ c ∈ q.contents, c.kind ≠ .commandPrefix) ∧
        ∀ n ∈ p.root.nodes, n.kind = .command → n.start ≤ d.span.start → d.span.start < n.stop → n = q := by
  intro words p
  refine ⟨fun l => ?_, fun q hq hkind before x after => next_of_prefix hsize hq hkind, fun d hd hmessage => ?_⟩
  · have hword : ∀ l : Lexer, l.IsWord ↔ l.kind ∈ words := fun l => Word.mem_kinds_iff l.kind
    refine ⟨by rw [Grammar.prefixApplies_iff, hword, hword], ?_⟩
    rw [Grammar.atProgramSubcommand_iff, Lexer.IsWordOf, hword, Word.isOneOf_iff]
    rfl
  · obtain ⟨f, hspan, q, hq, hbegins⟩ := exists_unnamed hsize hd hmessage
    have hstart : q.start = d.span.start := hspan ▸ hbegins.start
    have hstop : d.span.start < q.stop := hspan ▸ hbegins.stop
    refine ⟨q, Place.mem_nodes_iff.mpr ⟨hq, hbegins.node⟩, hbegins.kind, hstart, fun c hc => ?_,
      fun n hn hkind hn1 hn2 => ?_⟩
    · exact hbegins.bare c.tree (Place.tree_mem_children (List.mem_of_mem_filter hc))
    · exact Place.eq_of_commands (holdsNoCommand hsize) (Place.mem_nodes_iff.mp hn).1 hq hkind hbegins.kind ⟨hn1, hn2⟩
        ⟨Nat.le_of_eq hstart, hstop⟩

theorem lookahead_tokens_mixed :
    let text := ("qui: bys reg y\nbys\n) x\ncap :\n noi 2\nprogram\tdrop p\nprogram list2\nend\n" ++
      "qui : end // if\n: y").toList
    let words : List Kind := [.ident, .builtinVariable, .controlKeyword, .typeKeyword]
    let p := ofText text
    byteSize text ≤ maxOffset ∧
    (∀ l : Lexer, let next := l.next .statement
      (Grammar.prefixApplies l.after = true ↔
        next.kind ∈ words ∨ next.kind = .colon ∧ (next.next .statement).kind ∈ words) ∧
      (Grammar.atProgramSubcommand l.after = true ↔
        next.kind ∈ words ∧ next.ahead.text ∈ ["drop".toList, "dir".toList, "list".toList])) ∧
    (∀ q ∈ p.root.nodes, q.kind = .command → ∀ before x after, q.contents = before ++ x :: after →
      x.kind = .commandPrefix →
        ∃ y rest, after = y :: rest ∧ (y.kind = .commandPrefix ∨ q.contents.filter (·.kind == .name) = [y])) ∧
    ∀ d ∈ p.diagnostics, d.message = "expected a command name" →
      ∃ q ∈ p.root.nodes, q.kind = .command ∧ q.start = d.span.start ∧ (∀ c ∈ q.contents, c.kind ≠ .commandPrefix) ∧
        ∀ n ∈ p.root.nodes, n.kind = .command → n.start ≤ d.span.start → d.span.start < n.stop → n = q := by
  have hsize : byteSize ("qui: bys reg y\nbys\n) x\ncap :\n noi 2\nprogram\tdrop p\nprogram list2\nend\n" ++
      "qui : end // if\n: y").toList ≤ maxOffset := by decide
  exact ⟨hsize, lookahead_tokens hsize⟩

end Parse

end Dofile
