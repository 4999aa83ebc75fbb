import Dofile.Proofs.Context

/-!
# Mode discipline

The rules read every token in the mode of its context. The mode of the token ahead
was chosen when the one before it was taken, so what is said of a reading is said of
where it starts and where it ends: from a place in one mode it leads to a place
in another, and all that it takes between is disciplined.
-/

namespace Dofile

namespace Item

/-- Whether an item is disciplined where it stands in a mode. Directly within a problem node
it has to be that of statements. -/
def At (mode : Mode) (i : Item) : Prop :=
  ∀ parent, (parent = .error → mode = .statement) → i.Disciplined parent mode

theorem at_item {l : Lexer} {mode : Mode} (h : l.SameIn mode) : l.item.At mode := by
  intro parent hp
  refine ⟨?_, .inl rfl⟩
  split
  · rename_i he
    rwa [← hp he]
  · exact h

theorem at_word {l : Lexer} (h : l.SameIn .statement) (hw : l.IsWord) {kind : Kind}
    (hk : kind ∈ Kind.contextualKeywords) : (token l kind).At .statement := by
  intro parent _
  refine ⟨?_, .inr ⟨hw, .inr hk⟩⟩
  split <;> exact h

theorem at_found (f : Finding) (mode : Mode) : (found f).At mode := fun _ _ => trivial

theorem at_append_found {items : List Item} {mode : Mode} (h : ∀ i ∈ items, i.At mode) (f : Finding) :
    ∀ i ∈ items ++ [found f], i.At mode := by
  intro i hi
  rcases List.mem_append.mp hi with hi | hi
  · exact h i hi
  · rw [List.mem_singleton.mp hi]
    exact at_found f mode

theorem at_node {kind : Kind} {items : List Item} {mode : Mode} (h : DisciplinedAll kind mode [] items) :
    (node kind items).At mode := fun _ _ => h

theorem at_enclosed {kind : Kind} {items : List Item} {mode : Mode} (h : DisciplinedAll kind mode [] items) :
    (enclosed kind items).At mode := fun _ _ => h

theorem disciplinedAll_append {kind : Kind} {outer : Mode} : ∀ {is js : List Item} {before : List Kind},
    DisciplinedAll kind outer before is →
    DisciplinedAll kind outer ((is.filterMap kind?).reverse ++ before) js →
      DisciplinedAll kind outer before (is ++ js)
  | [], _, _, _, h' => h'
  | i :: is, js, before, h, h' => by
    refine ⟨h.1, disciplinedAll_append h.2 ?_⟩
    cases hk : i.kind? with
    | none => simpa [hk] using h'
    | some k => simpa [hk] using h'

/-- Where the mode within a node is always the same, its items need only stand in that. -/
theorem disciplinedAll_of_at {kind : Kind} {outer mode : Mode} (hkind : kind = .error → mode = .statement)
    (hmode : ∀ before, modeWithin kind outer before = mode) {items : List Item} (h : ∀ i ∈ items, i.At mode) :
    ∀ before, DisciplinedAll kind outer before items := by
  induction items with
  | nil => exact fun _ => trivial
  | cons i is ih =>
    intro before
    refine ⟨?_, ih (fun j hj => h j (List.mem_cons_of_mem _ hj)) _⟩
    rw [hmode]
    exact h i (by simp) kind hkind

end Item

namespace Kind

def Contains (kind : Kind) (inner : Mode) : Prop :=
  kind ≠ .error ∧ ∀ outer before, modeWithin kind outer before = if before.isEmpty then outer else inner

theorem contains_doubleString : Contains .doubleString .doubleString := ⟨by decide, fun _ _ => rfl⟩

theorem contains_globalMacro : Contains .globalMacro .globalMacro := ⟨by decide, fun _ _ => rfl⟩

theorem contains_kindAt (family : Family) (depth : Nat) : (family.kindAt depth).Contains family.mode := by
  cases family with
  | localMacro => exact ⟨by simp [Family.kindAt, localMacroAt], fun _ _ => rfl⟩
  | compoundString => exact ⟨by simp [Family.kindAt, compoundStringAt], fun _ _ => rfl⟩

theorem Contains.disciplinedAll {kind : Kind} {inner : Mode} (h : kind.Contains inner) {outer : Mode}
    {first : Item} (hfirst : first.At outer) (hk : first.kind? ≠ none) {items : List Item}
    (hitems : ∀ i ∈ items, i.At inner) : Item.DisciplinedAll kind outer [] (first :: items) := by
  have hne : ∀ (is : List Item) (before : List Kind), before ≠ [] → (∀ i ∈ is, i.At inner) →
      Item.DisciplinedAll kind outer before is := by
    intro is
    induction is with
    | nil => exact fun _ _ _ => trivial
    | cons i is ih =>
      intro before hb hi
      refine ⟨?_, ih _ (by simp [hb]) fun j hj => hi j (List.mem_cons_of_mem _ hj)⟩
      rw [h.2, if_neg (by simpa using hb)]
      exact hi i (by simp) kind fun he => absurd he h.1
  refine ⟨?_, hne items _ ?_ hitems⟩
  · rw [h.2]
    exact hfirst kind fun he => absurd he h.1
  · obtain ⟨k, hk⟩ := Option.ne_none_iff_exists'.mp hk
    simp [hk]

end Kind

namespace Reading

/-- Whether a reading leads from a mode to another, by way of items with a property. -/
def Reads (m m' : Mode) (P : Item → Prop) (R : Reading) : Prop :=
  ∀ ⦃l items l'⦄, R.leads l items l' → l.SameIn m → l'.SameIn m' ∧ ∀ i ∈ items, P i

section
variable {m m' m'' : Mode} {P : Item → Prop} {R S : Reading}

theorem reads_take (m m' : Mode) : Reads m m' (Item.At m) (take m') := by
  intro l _ _ h hm
  obtain ⟨-, rfl, rfl⟩ := h
  exact ⟨.inl rfl, by simpa using Item.at_item hm⟩

theorem reads_word {kind : Kind} (hk : kind ∈ Kind.contextualKeywords) (m' : Mode) (h : kind ∈ Kind.wordLabels) :
    Reads .statement m' (Item.At .statement) (word kind m' h) := by
  intro l _ _ h hm
  obtain ⟨hw, rfl, rfl⟩ := h
  exact ⟨.inl rfl, by simpa using Item.at_word hm hw hk⟩

theorem reads_relex (m m' : Mode) (P : Item → Prop) : Reads m m' P (relex m') := by
  intro l _ _ h _
  obtain ⟨rfl, rfl⟩ := h
  exact ⟨.inl rfl, by simp⟩

theorem reads_report (m : Mode) (problem : Problem) : Reads m m (Item.At m) (report problem) := by
  intro _ _ l h hm
  obtain ⟨rfl, rfl⟩ := h
  exact ⟨hm, by simpa using Item.at_found _ m⟩

theorem reads_skip (m : Mode) (P : Item → Prop) : Reads m m P skip := by
  intro _ _ l h hm
  obtain ⟨rfl, rfl⟩ := h
  exact ⟨hm, by simp⟩

theorem Reads.seq (h : Reads m m' P R) (h' : Reads m' m'' P S) : Reads m m'' P (R.seq S) := by
  intro _ _ _ h hm
  obtain ⟨is, n, js, hR, hS, rfl⟩ := h
  obtain ⟨hn, his⟩ := h hR hm
  obtain ⟨hl, hjs⟩ := h' hS hn
  exact ⟨hl, fun i hi => (List.mem_append.mp hi).elim (his i) (hjs i)⟩

theorem Reads.when (h : Reads m m' P R) (c : Lexer → Prop) : Reads m m' P (R.when c) :=
  fun _ _ _ hR hm => h hR.2 hm

theorem Reads.upTo (h : Reads m m' P R) (c : Lexer → Prop) : Reads m m' P (R.upTo c) :=
  fun _ _ _ hR hm => h hR.1 hm

theorem Reads.or (h : Reads m m' P R) (h' : Reads m m' P S) : Reads m m' P (R.or S) :=
  fun _ _ _ hRS hm => hRS.elim (h · hm) (h' · hm)

theorem Reads.either (h : Reads m m' P R) (h' : Reads m m' P S) (c : Lexer → Prop) :
    Reads m m' P (either c R S) :=
  Reads.or (h.when c) (h'.when _)

theorem Reads.any {R : Nat → Reading} (h : ∀ n, Reads m m' P (R n)) : Reads m m' P (any R) :=
  fun _ _ _ ⟨n, hR⟩ hm => h n hR hm

theorem reads_eat (kind : Kind) (m : Mode) : Reads m m (Item.At m) (eat kind m) :=
  (reads_take m m).either (reads_skip m _) _

theorem Reads.many (stops : Lexer → Prop) (h : Reads m m P R) : Reads m m P (many stops R) := by
  intro l items l' hmany
  induction hmany with
  | done => exact fun hm => ⟨hm, by simp⟩
  | more _ first _ ih =>
    intro hm
    obtain ⟨hn, his⟩ := h first hm
    obtain ⟨hl, hjs⟩ := ih hn
    exact ⟨hl, fun i hi => (List.mem_append.mp hi).elim (his i) (hjs i)⟩

/-! ## Nodes of statements -/

theorem Reads.node {kind : Kind} {hk : kind.isNode = true} (h : Reads .statement m' (Item.At .statement) R)
    (hkind : ∀ before, modeWithin kind .statement before = .statement) :
    Reads .statement m' (Item.At .statement) (node kind R hk) := by
  intro _ _ _ h hm
  obtain ⟨is, hR, rfl⟩ := h
  obtain ⟨hl, his⟩ := h hR hm
  refine ⟨hl, ?_⟩
  simpa using Item.at_node (Item.disciplinedAll_of_at (fun _ => rfl) hkind his _)

theorem Reads.givenUp {kind : Kind} {problem : Problem} {span : Lexer → Lexer → Span} {hk : kind.isNode = true}
    (h : Reads .statement m' (Item.At .statement) R)
    (hkind : ∀ before, modeWithin kind .statement before = .statement) :
    Reads .statement m' (Item.At .statement) (givenUp kind problem span R hk) := by
  intro l _ l' h hm
  obtain ⟨is, hR, -, rfl⟩ := h
  obtain ⟨hl, his⟩ := h hR hm
  refine ⟨hl, ?_⟩
  have hall := Item.at_append_found his ⟨problem, span l l'⟩
  simpa using Item.at_enclosed (Item.disciplinedAll_of_at (fun _ => rfl) hkind hall _)

/-! ## Strings and macro references -/

def Opens (outer inner m' : Mode) (R : Reading) : Prop :=
  ∀ ⦃l items l'⦄, R.leads l items l' → l.SameIn outer → l'.SameIn m' ∧
    ∃ first rest, items = first :: rest ∧ first.At outer ∧ first.kind? ≠ .none ∧ ∀ i ∈ rest, i.At inner

theorem opens_take (outer inner : Mode) : Opens outer inner inner (take inner) := by
  intro l _ _ h hm
  obtain ⟨-, rfl, rfl⟩ := h
  exact ⟨.inl rfl, l.item, [], rfl, Item.at_item hm, by simp [Lexer.item, Item.kind?], by simp⟩

variable {outer inner : Mode}

theorem Opens.upTo (h : Opens outer inner m' R) (c : Lexer → Prop) : Opens outer inner m' (R.upTo c) :=
  fun _ _ _ hR hm => h hR.1 hm

theorem Opens.seq (h : Opens outer inner m' R) (h' : Reads m' m'' (Item.At inner) S) :
    Opens outer inner m'' (R.seq S) := by
  intro _ _ _ h hm
  obtain ⟨_, n, js, hR, hS, rfl⟩ := h
  obtain ⟨hn, first, rest, rfl, hfirst, hk, hrest⟩ := h hR hm
  obtain ⟨hl, hjs⟩ := h' hS hn
  exact ⟨hl, first, rest ++ js, rfl, hfirst, hk,
    fun i hi => (List.mem_append.mp hi).elim (hrest i) (hjs i)⟩

variable {kind closer : Kind} {problem : Problem} {span : Lexer → Lexer → Span} {hk : kind.isNode = true}

theorem Opens.node (h : Opens outer inner m' R) (hkind : kind.Contains inner) :
    Reads outer m' (Item.At outer) (node kind R hk) := by
  intro _ _ _ h hm
  obtain ⟨_, hR, rfl⟩ := h
  obtain ⟨hl, first, rest, rfl, hfirst, hk, hrest⟩ := h hR hm
  refine ⟨hl, ?_⟩
  simpa using Item.at_node (hkind.disciplinedAll hfirst hk hrest)

theorem Opens.givenUp (h : Opens outer inner m' R) (hkind : kind.Contains inner) :
    Reads outer m' (Item.At outer) (givenUp kind problem span R hk) := by
  intro l _ l' h hm
  obtain ⟨_, hR, -, rfl⟩ := h
  obtain ⟨hl, first, rest, rfl, hfirst, hk, hrest⟩ := h hR hm
  refine ⟨hl, ?_⟩
  have hall := Item.at_append_found hrest ⟨problem, span l l'⟩
  simpa using Item.at_enclosed (hkind.disciplinedAll hfirst hk hall)

theorem Opens.delimited (h : Opens outer inner inner R) (hkind : kind.Contains inner) :
    Reads outer outer (Item.At outer) (delimited kind closer problem span outer R hk) :=
  Reads.or (((h.upTo _).seq (reads_take inner outer)).node hkind)
    (((h.upTo _).givenUp hkind).seq (reads_relex inner outer _))

end

theorem reads_bracedName : Reads .globalMacro .globalMacro (Item.At .globalMacro) bracedName :=
  (reads_take _ _).either ((reads_report _ _).either (reads_skip _ _) _) _

theorem reads_globalMacro (outer : Mode) : Reads outer outer (Item.At outer) (globalMacro outer) := by
  have hopen := opens_take outer .globalMacro
  refine Reads.when (Reads.or ?_ (Reads.or ?_ ?_)) _
  · exact ((hopen.upTo _).seq (reads_take _ outer)).node Kind.contains_globalMacro
  · exact ((hopen.upTo _).seq ((reads_take _ _).seq reads_bracedName)).delimited Kind.contains_globalMacro
  · exact ((hopen.upTo _).givenUp Kind.contains_globalMacro).seq (reads_relex _ outer _)

theorem reads_stringItem : Reads .doubleString .doubleString (Item.At .doubleString) stringItem :=
  (reads_globalMacro _).either (reads_take _ _) _

theorem reads_doubleString (outer : Mode) : Reads outer outer (Item.At outer) (doubleString outer) :=
  (((opens_take outer _).seq (reads_stringItem.many _)).delimited Kind.contains_doubleString).when _

theorem reads_contentItem {construct : Family → Nat → Mode → Reading}
    (h : ∀ f d m, Reads m m (Item.At m) (construct f d m)) (family : Family) (depth : Nat) :
    Reads family.mode family.mode (Item.At family.mode) (contentItem construct family depth) :=
  (h _ _ _).either ((h _ _ _).either ((reads_globalMacro _).either
    ((reads_doubleString _).either (reads_take _ _) _) _) _) _

theorem reads_constructWith {contents : Family → Nat → Reading}
    (h : ∀ f d, Reads f.mode f.mode (Item.At f.mode) (contents f d)) (family : Family) (depth : Nat)
    (outer : Mode) : Reads outer outer (Item.At outer) (constructWith contents family depth outer) :=
  (((opens_take outer _).seq (h family depth)).delimited (Kind.contains_kindAt family depth)).when _

theorem reads_contentsTo : ∀ (height : Nat) (family : Family) (depth : Nat),
    Reads family.mode family.mode (Item.At family.mode) (contentsTo height family depth)
  | 0, _, _ => fun _ _ _ h => h.elim
  | height + 1, family, depth =>
    (reads_contentItem (reads_constructWith (reads_contentsTo height)) family depth).many _

theorem reads_construct (family : Family) (depth : Nat) (outer : Mode) :
    Reads outer outer (Item.At outer) (construct family depth outer) :=
  Reads.any fun height => reads_constructWith (reads_contentsTo height) family depth outer

/-! ## Statements -/

abbrev ReadsStatement (R : Reading) : Prop := Reads .statement .statement (Item.At .statement) R

theorem reads_takeInError (problem : Problem) : ReadsStatement (takeInError problem) :=
  ((reads_report _ _).seq (reads_take _ _)).node fun _ => rfl

theorem reads_argument : ReadsStatement argument :=
  (reads_doubleString _).either ((reads_construct _ _ _).either ((reads_construct _ _ _).either
    ((reads_globalMacro _).either ((reads_takeInError _).either
      ((reads_takeInError _).either (reads_take _ _) _) _) _) _) _) _

theorem reads_arguments : ReadsStatement arguments := reads_argument.many _

theorem reads_trailingComments : ReadsStatement trailingComments := reads_argument.many _

theorem reads_endOfLine : ReadsStatement endOfLine :=
  reads_trailingComments.seq (((reads_skip _ _).either
    (((reads_report _ _).seq reads_arguments).node fun _ => rfl) _).seq (reads_eat _ _))

theorem reads_nameWord : ReadsStatement nameWord := by
  intro l _ _ h hm
  obtain ⟨_, ⟨hw, rfl, rfl⟩, rfl⟩ := h
  refine ⟨.inl rfl, ?_⟩
  have hword : Item.DisciplinedAll .name .statement [] [.token l .ident] :=
    ⟨⟨hm, .inr ⟨hw, .inl ⟨rfl, rfl⟩⟩⟩, trivial⟩
  simpa using Item.at_node hword

theorem reads_name (problem : Problem) : ReadsStatement (name problem) :=
  reads_nameWord.either (reads_report _ _) _

theorem reads_comment : ReadsStatement comment := reads_argument.node fun _ => rfl

theorem reads_blockClose : ReadsStatement blockClose :=
  ((reads_take _ _).seq reads_arguments).node fun _ => rfl

theorem reads_macroDefinition : ReadsStatement macroDefinition :=
  (((reads_word (by decide) _ _).either (reads_word (by decide) _ _) _).seq
    ((reads_name _).seq reads_arguments)).node fun _ => rfl

theorem reads_temporaryDefinition : ReadsStatement temporaryDefinition :=
  ((reads_word (by decide) _ _).seq (((reads_skip _ _).either (reads_report _ _) _).seq
    ((reads_nameWord.many _).seq reads_trailingComments))).node fun _ => rfl

theorem reads_strayEnd : ReadsStatement strayEnd :=
  ((reads_report _ _).seq ((reads_word (by decide) _ _).seq reads_trailingComments)).node fun _ => rfl

theorem reads_commandPrefix : ReadsStatement commandPrefix :=
  ((reads_word (by decide) _ _).seq (reads_eat _ _)).node fun _ => rfl

theorem reads_commandHead : ReadsStatement commandHead :=
  reads_nameWord.either (reads_argument.either
    (((reads_report _ _).seq reads_argument).node fun _ => rfl) _) _

theorem reads_command : ReadsStatement command :=
  ((reads_commandPrefix.many _).seq (reads_commandHead.seq reads_arguments)).node fun _ => rfl

/-! ## Mata blocks -/

theorem mataMode_leftBrace {before : List Kind} (h : mataMode before = .mataHead) :
    mataMode (.leftBrace :: before) = .mataBrace := by
  simp only [mataMode] at h ⊢
  split at h; · cases h
  split at h; · cases h
  split at h; · cases h
  simp_all

theorem mataMode_newline {before : List Kind} (h : mataMode before = .mataHead ∨ mataMode before = .mataLine) :
    mataMode (.newline :: before) = .mataLine := by
  simp only [mataMode] at h ⊢
  grind

theorem mataMode_content {before : List Kind} (h : mataMode before = .mataBrace ∨ mataMode before = .mataLine) :
    mataMode (.mataContent :: before) = mataMode before := by
  simp only [mataMode] at h ⊢
  grind

theorem mataMode_of_end {before : List Kind} (h : .endKeyword ∈ before) : mataMode before = .statement := by
  simp [mataMode, h]

def behind (items : List Item) (before : List Kind) : List Kind :=
  (items.filterMap Item.kind?).reverse ++ before

abbrev InMata (before : List Kind) (items : List Item) : Prop :=
  Item.DisciplinedAll .mataBlock .statement before items

theorem inMata_item {l : Lexer} {before : List Kind} (h : l.SameIn (mataMode before)) : InMata before [l.item] :=
  ⟨Item.at_item h .mataBlock (by simp), trivial⟩

theorem inMata_found (f : Finding) (before : List Kind) : InMata before [.found f] := ⟨trivial, trivial⟩

theorem inMata_append {before : List Kind} {is js : List Item} (h : InMata before is)
    (h' : InMata (behind is before) js) : InMata before (is ++ js) := Item.disciplinedAll_append h h'

theorem behind_item (l : Lexer) (before : List Kind) : behind [l.item] before = l.kind :: before := rfl

theorem behind_append (is js : List Item) (before : List Kind) :
    behind (is ++ js) before = behind js (behind is before) := by
  simp [behind]

/-- Behind the `end` of a block there is nothing but comments. -/
theorem inMata_of_end {items : List Item} (h : ∀ i ∈ items, i.At .statement) :
    ∀ {before : List Kind}, .endKeyword ∈ before → InMata before items := by
  induction items with
  | nil => exact fun _ => trivial
  | cons i is ih =>
    intro before hb
    refine ⟨?_, ih (fun j hj => h j (List.mem_cons_of_mem _ hj)) (List.mem_append_right _ hb)⟩
    have hmode : modeWithin .mataBlock .statement before = .statement := mataMode_of_end hb
    rw [hmode]
    exact h i (by simp) .mataBlock fun _ => rfl

theorem inMata_opening {l m : Lexer} {items : List Item} (h : mataOpening.leads l items m)
    (hl : l.SameIn .statement) :
    m.mode = .mataHead ∧ InMata [] items ∧ mataMode (behind items []) = .mataHead := by
  obtain ⟨_, _, _, ⟨hw, rfl, rfl⟩, heat, rfl⟩ := h
  have hword : InMata [] [.token l .mataKeyword] :=
    ⟨Item.at_word hl hw (by decide) .mataBlock fun _ => rfl, trivial⟩
  rcases heat with ⟨hcolon, -, rfl, rfl⟩ | ⟨-, rfl, rfl⟩
  · refine ⟨rfl, inMata_append hword (inMata_item (.inl rfl)), ?_⟩
    rw [behind_append, behind_item, hcolon]
    rfl
  · exact ⟨rfl, hword, rfl⟩

theorem reads_mataBraces : ReadsStatement mataBraces := by
  have hbody : ∀ {l m : Lexer} {items : List Item}, ((mataOpening.upTo (·.kind = .leftBrace)).seq
      ((take .mataBrace).seq (eat .mataContent .mataBrace))).leads l items m → l.SameIn .statement →
        m.mode = .mataBrace ∧ InMata [] items ∧ mataMode (behind items []) = .mataBrace := by
    intro l m _ h hl
    obtain ⟨is, n, _, ⟨hopen, hbrace⟩, ⟨_, _, js, ⟨-, rfl, rfl⟩, heat, rfl⟩, rfl⟩ := h
    obtain ⟨hn, his, hmode⟩ := inMata_opening hopen hl
    have hinner : mataMode (behind [n.item] (behind is [])) = .mataBrace := by
      rw [behind_item, hbrace]
      exact mataMode_leftBrace hmode
    have hitem : InMata (behind is []) [n.item] := inMata_item (.inl (hn.trans hmode.symm))
    rw [behind_append, behind_append]
    rcases heat with ⟨hcontent, -, rfl, rfl⟩ | ⟨-, rfl, rfl⟩
    · refine ⟨rfl, inMata_append his (inMata_append hitem (inMata_item (.inl hinner.symm))), ?_⟩
      rw [behind_item (n.next _), hcontent, mataMode_content (.inl hinner)]
      exact hinner
    · exact ⟨rfl, inMata_append his (inMata_append hitem trivial), hinner⟩
  intro l items l' h hl
  obtain ⟨_, ⟨is, m, _, ⟨hR, -⟩, ⟨-, rfl, rfl⟩, rfl⟩, rfl⟩ |
    ⟨_, m, _, ⟨is, ⟨hR, -⟩, -, rfl⟩, ⟨rfl, rfl⟩, rfl⟩ := h
  all_goals obtain ⟨hm, his, hmode⟩ := hbody hR hl
  · refine ⟨.inl rfl, ?_⟩
    have hall : InMata [] (is ++ [m.item]) :=
      inMata_append his (inMata_item (.inl (hm.trans hmode.symm)))
    simpa using Item.at_node hall
  · refine ⟨.inl rfl, ?_⟩
    have hall := inMata_append his (inMata_found ⟨.missingMataBrace, l.ahead.span⟩ _)
    simpa using Item.at_enclosed hall

theorem inMata_lines {l m : Lexer} {items : List Item} (h : (many MataEnds (take .mataLine)).leads l items m) :
    ∀ {before : List Kind}, l.mode = mataMode before →
      (mataMode before = .mataHead ∧ l.EndsLine ∨ mataMode before = .mataLine) →
        InMata before items ∧ (m.kind = .eof ∨ m.mode = .mataLine ∧ mataMode (behind items before) = .mataLine) := by
  induction h with
  | @done l hs =>
    intro before hl hb
    refine ⟨trivial, ?_⟩
    rcases hb with ⟨-, hends⟩ | hb
    · rcases hs with hs | hs
      · exact .inl hs
      · rcases hends with he | he <;> rw [he] at hs <;> cases hs
    · exact .inr ⟨hl.trans hb, hb⟩
  | @more l n l' is js hs first _ ih =>
    intro before hl hb
    obtain ⟨-, rfl, rfl⟩ := first
    -- the first line break leads from the head to the lines, and only an `end` leads on
    have hnext : mataMode (l.kind :: before) = .mataLine := by
      rcases hb with ⟨hb, hends⟩ | hb
      · have hk : l.kind = .newline := hends.resolve_right fun he => hs (.inl he)
        rw [hk]
        exact mataMode_newline (.inl hb)
      · rcases l.kind_cases with hk | hk | hk
        · exact absurd (.inl hk) hs
        · rw [hk]
          exact mataMode_newline (.inr hb)
        · rw [hl, hb] at hk
          simp only [Mode.kinds, List.mem_cons, List.not_mem_nil, or_false] at hk
          rcases hk with hk | hk
          · exact absurd (.inr hk) hs
          · rw [hk, mataMode_content (.inr hb)]
            exact hb
    obtain ⟨hjs, hend⟩ := ih hnext.symm (.inr hnext)
    exact ⟨inMata_append (inMata_item (.inl hl)) hjs, by rwa [behind_append]⟩

theorem reads_mataLines : ReadsStatement mataLines := by
  have hbody : ∀ {l m : Lexer} {items : List Item},
      ((mataOpening.upTo Lexer.EndsLine).seq (many MataEnds (take .mataLine))).leads l items m →
        l.SameIn .statement → InMata [] items ∧
          (m.kind = .eof ∨ m.mode = .mataLine ∧ mataMode (behind items []) = .mataLine) := by
    intro l m _ h hl
    obtain ⟨is, n, js, ⟨hopen, hends⟩, hmany, rfl⟩ := h
    obtain ⟨hn, his, hmode⟩ := inMata_opening hopen hl
    obtain ⟨hjs, hend⟩ := inMata_lines hmany (hn.trans hmode.symm) (.inl ⟨hmode, hends⟩)
    exact ⟨inMata_append his hjs, by rwa [behind_append]⟩
  intro l items l' h hl
  obtain ⟨is, ⟨hR, heof⟩, -, rfl⟩ |
    ⟨_, ⟨is, m, _, ⟨hR, heof⟩, ⟨_, _, js, ⟨hw, rfl, rfl⟩, hcomments, rfl⟩, rfl⟩, rfl⟩ := h
  all_goals obtain ⟨his, hend⟩ := hbody hR hl
  · refine ⟨.inr heof, ?_⟩
    have hall := inMata_append his (inMata_found ⟨.missingMataEnd, l.ahead.span⟩ _)
    simpa using Item.at_enclosed hall
  · obtain ⟨hm, hmode⟩ := hend.resolve_left heof
    obtain ⟨hl', hjs⟩ := reads_trailingComments hcomments (.inl rfl)
    have hword : InMata (behind is []) [.token m .endKeyword] :=
      ⟨⟨.inl (hm.trans hmode.symm), .inr ⟨hw, .inr (by decide)⟩⟩, trivial⟩
    have hall : InMata [] (is ++ ([.token m .endKeyword] ++ js)) :=
      inMata_append his (inMata_append hword (inMata_of_end hjs (List.mem_cons_self ..)))
    exact ⟨hl', by simpa using Item.at_node hall⟩

theorem reads_mataInline : ReadsStatement mataInline := by
  intro l _ _ h hl
  obtain ⟨_, ⟨is, m, _, ⟨hopen, -⟩, ⟨-, rfl, rfl⟩, rfl⟩, rfl⟩ := h
  obtain ⟨hm, his, hmode⟩ := inMata_opening hopen hl
  have hall : InMata [] (is ++ [m.item]) := inMata_append his (inMata_item (.inl (hm.trans hmode.symm)))
  exact ⟨.inl rfl, by simpa using Item.at_node hall⟩

theorem reads_mataBlock : ReadsStatement mataBlock :=
  reads_mataBraces.or (reads_mataLines.or reads_mataInline)

/-! ## Programs and lines -/

theorem reads_programHead : ReadsStatement programHead :=
  (reads_word (by decide) _ _).seq (((reads_word (by decide) _ _).either (reads_skip _ _) _).seq
    ((reads_name _).seq reads_arguments))

section
variable {line : Reading} (h : ReadsStatement line)
include h

theorem reads_programDefinition : ReadsStatement (programDefinition line) :=
  Reads.or (((reads_programHead.seq (h.many _)).upTo _).givenUp fun _ => rfl)
    ((((reads_programHead.seq (h.many _)).upTo _).seq
      ((reads_word (by decide) _ _).seq reads_trailingComments)).node fun _ => rfl)

theorem reads_statement : ReadsStatement (statement line) :=
  reads_comment.either (reads_blockClose.either ((reads_programDefinition h).either
    (reads_mataBlock.either (reads_macroDefinition.either (reads_temporaryDefinition.either
      (reads_strayEnd.either reads_command _) _) _) _) _) _) _

theorem reads_lineWith : ReadsStatement (lineWith line) :=
  Reads.when ((reads_take _ _).either ((reads_comment.many _).seq
    (((reads_skip _ _).either (reads_statement h) _).seq reads_endOfLine)) _) _

end

theorem reads_line : ∀ depth : Nat, ReadsStatement (line depth)
  | 0 => fun _ _ _ h => h.elim
  | depth + 1 => reads_lineWith (reads_line depth)

theorem reads_lines (depth : Nat) : ReadsStatement (lines depth) := (reads_line depth).many _

end Reading

/-! ## The whole text -/

namespace Parse

/-- Every leaf but the blanks reads again, from where it starts and in the mode of its
context, as it stands in the tree. A word may have been taken for a name or a keyword. -/
theorem mode_discipline (text : List Char) (hsize : byteSize text ≤ maxOffset) :
    ∀ p ∈ (ofText text).root.leaves, p.kind ≠ .whitespace →
      ∃ l, Lexer.at? text p.start p.contextMode = some l ∧ l.ahead.span = p.span ∧
        Relabels p.parentKind? l.kind p.kind := by
  obtain ⟨items, l, h⟩ := Reading.exists_lines text
  have haccount := account_of_lines h
  obtain ⟨hl, hitems⟩ := Reading.reads_lines text.length h (.inl rfl)
  obtain ⟨hstands, htaken⟩ := haccount.stands (Lexer.stands_ofText text)
  obtain ⟨hstarts, hoffset⟩ := haccount.starts
  have hat : ∀ i ∈ fileItems items l, i.At .statement := by
    intro i hi
    rcases List.mem_append.mp hi with hi | hi
    · exact hitems i hi
    · rw [List.mem_singleton.mp hi]
      exact Item.at_item hl
  have hdisciplined : Item.DisciplinedAll .sourceFile .statement [] (fileItems items l) :=
    Item.disciplinedAll_of_at (fun _ => rfl) (fun _ => rfl) hat []
  have hstart : Item.StartsAll 0 (fileItems items l) :=
    Item.startsAll_append hstarts ⟨hoffset, trivial⟩
  have hlexers : ∀ t ∈ Item.takenAll (fileItems items l), t.1.Stands text := by
    intro t ht
    rw [fileItems, Item.takenAll_append, List.mem_append] at ht
    rcases ht with ht | ht
    · exact (htaken t ht).1
    · simp only [Lexer.item, Item.takenAll, Item.taken, List.append_nil, List.mem_singleton] at ht
      rw [ht]
      exact hstands
  have hall : AllReadAgain text (leavesFrom .sourceFile 0 [] 0 []
      (Script.forest (Item.scriptsAll (fileItems items l)))) :=
    allReadAgain_forest fun before hb =>
      allReadAgain_waiting (fileItems items l) (by rw [hb]; exact hdisciplined) (sound_fileItems h).2 hstart hlexers
  intro p hp
  apply hall p
  rw [ofText_eq h hsize] at hp
  simpa [root, Place.ofRoot, Place.leaves, Place.walk, Place.walkTree, leavesFrom, List.filterMap_cons,
    Visit.leaf?] using hp

theorem mode_discipline_mixed :
    let text := "display \"a `b' c\"\nmata \x7b\n x\n\x7d\ndisplay $\x7bd\n".toList
    byteSize text ≤ maxOffset ∧ ∀ p ∈ (ofText text).root.leaves, p.kind ≠ .whitespace →
      ∃ l, Lexer.at? text p.start p.contextMode = some l ∧ l.ahead.span = p.span ∧
        Relabels p.parentKind? l.kind p.kind := by
  have hsize : byteSize "display \"a `b' c\"\nmata \x7b\n x\n\x7d\ndisplay $\x7bd\n".toList ≤ maxOffset := by decide
  exact ⟨hsize, mode_discipline _ hsize⟩

end Parse

end Dofile
