import Dofile.Proofs.Whole

/-!
# Contexts

The mode in which a leaf was read can be told from its place in the tree: from the
nodes around it and from what stands before it in the innermost of them. Here the
mode of a place is defined, and a rule for items that makes it come true.
-/

namespace Dofile

def Kind.contextualKeywords : List Kind :=
  [.prefixKeyword, .localKeyword, .globalKeyword, .tempKeyword, .programKeyword, .defineKeyword,
    .endKeyword, .mataKeyword]

def mataMode (before : List Kind) : Mode :=
  if before.isEmpty || before.contains .endKeyword || before.contains .rightBrace then .statement
  else if before.contains .leftBrace then .mataBrace
  else if before.contains .newline then .mataLine
  else .mataHead

/-- The mode within a node behind children of some kinds, where the node itself stands in
the mode `outer`. The opener of a string or macro reference is still read in that. -/
def modeWithin (kind : Kind) (outer : Mode) (before : List Kind) : Mode :=
  match kind with
  | .doubleString => if before.isEmpty then outer else .doubleString
  | .compoundString _ => if before.isEmpty then outer else .compoundString
  | .localMacro _ => if before.isEmpty then outer else .localMacro
  | .globalMacro => if before.isEmpty then outer else .globalMacro
  | .mataBlock => mataMode before
  | .error => outer
  | _ => .statement

/-- Whether the token of one kind may have become a leaf of another: a word may be a name,
or a keyword in its place. -/
def Relabels (parent? : Option Kind) (read kind : Kind) : Prop :=
  kind = read ∨ Word.kinds.contains read = true ∧
    (kind = .ident ∧ parent? = some .name ∨ kind ∈ Kind.contextualKeywords)

def Crumb.kindsBefore (c : Crumb) : List Kind := (c.before.map Tree.kind).filter (· != .whitespace)

namespace Place

/-- The mode of the position that a way up leads from. Problem nodes are passed over. -/
def positionMode : List Crumb → Mode
  | [] => .statement
  | c :: above => modeWithin c.kind (positionMode above) c.kindsBefore

/-- The mode in which a leaf is read in its place. What stands directly in a problem node
is a part of a statement. -/
def contextMode (p : Place) : Mode :=
  match p.above with
  | [] => .statement
  | c :: above => if c.kind = .error then .statement else modeWithin c.kind (positionMode above) c.kindsBefore

def parentKind? (p : Place) : Option Kind := p.above.head?.map Crumb.kind

end Place

/-! ## Reading again -/

namespace Lexer

def at? (text : List Char) (offset : Nat) (mode : Mode) : Option Lexer :=
  (cutBytes offset text).map fun parts => ⟨offset, isLineStart text offset, parts.2, mode⟩

theorem freshAfter_blanks (fresh : Bool) {blanks : List Char} (h : ∀ c ∈ blanks, isBlank c = true) :
    freshAfter fresh blanks = fresh := by
  induction blanks generalizing fresh with
  | nil => rfl
  | cons c blanks ih =>
    have hc := h c (by simp)
    have hb : isLineBreak c = false := by
      cases hb : isLineBreak c with
      | false => rfl
      | true => rw [isBlank_of_isLineBreak hb] at hc; cases hc
    rw [← List.singleton_append, freshAfter_append, ih _ fun c hc => h c (List.mem_cons_of_mem _ hc)]
    simp [freshAfter, hb, hc]

/-- A token without its blanks reads as it does behind them. -/
theorem ahead_of_body {l m : Lexer} (hoffset : m.offset = l.ahead.start) (hfresh : m.fresh = l.fresh)
    (hrest : m.rest = l.body) (hsame : l.SameIn m.mode) :
    m.ahead.span = l.ahead.span ∧ m.kind = l.kind := by
  have hlead : m.leading = [] := by
    unfold leading
    split
    · rename_i hskip
      rcases hsame with hmode | heof
      · rw [hrest, body_eq_dropWhile (hmode ▸ hskip)]
        exact takeWhile_dropWhile ..
      · rw [hrest, l.kind_eq_eof_iff.mp heof]
        rfl
    · rfl
  have hbody : m.body = l.body := by
    rw [← hrest, ← m.leading_append_body, hlead, List.nil_append]
  have hlexeme : m.mode.lexeme m.fresh m.body = l.mode.lexeme l.fresh l.body := by
    rcases hsame with hmode | heof
    · rw [hmode, hfresh, hbody]
    · rw [hbody, l.kind_eq_eof_iff.mp heof, Mode.lexeme_nil, Mode.lexeme_nil]
  have hstart : m.ahead.start = l.ahead.start := by
    have hs : m.ahead.start = m.offset + byteSize m.leading := rfl
    rw [hs, hlead, byteSize_nil, Nat.add_zero, hoffset]
  have htext : m.ahead.text = l.ahead.text := congrArg Lexeme.text hlexeme
  refine ⟨?_, congrArg Lexeme.kind hlexeme⟩
  rw [Token.span, Token.span, Token.stop, Token.stop, hstart, htext]

theorem Stands.cut_body {text : List Char} {l : Lexer} (h : l.Stands text) :
    ∃ before, cutBytes l.ahead.start text = some (before, l.body) ∧ freshAfter true before = l.fresh := by
  obtain ⟨before, htext, hoffset, hfresh⟩ := h
  have hstart : l.ahead.start = byteSize (before ++ l.leading) := by
    rw [byteSize_append, ← hoffset]
    rfl
  have hcover : text = (before ++ l.leading) ++ l.body := by
    rw [List.append_assoc, l.leading_append_body, htext]
  refine ⟨before ++ l.leading, ?_, ?_⟩
  · rw [hstart]
    exact (congrArg (cutBytes _) hcover).trans (cutBytes_byteSize ..)
  · rw [freshAfter_append, ← hfresh, freshAfter_blanks _ fun c hc => isBlank_of_mem_leading hc]

/-- What a lexer carries along is what looking back from its token would tell. -/
theorem Stands.isLineStart_start {text : List Char} {l : Lexer} (h : l.Stands text) :
    isLineStart text l.ahead.start = l.fresh := by
  obtain ⟨before, hcut, hfresh⟩ := h.cut_body
  simpa [isLineStart, hcut, ← freshAfter_eq_endsFresh] using hfresh

/-- What a lexer in a text has ahead can be read again from where it starts. -/
theorem Stands.read_again {text : List Char} {l : Lexer} (h : l.Stands text) {mode : Mode}
    (hsame : l.SameIn mode) :
    ∃ m, at? text l.ahead.start mode = some m ∧ m.ahead.span = l.ahead.span ∧ m.kind = l.kind := by
  obtain ⟨before, hcut, -⟩ := h.cut_body
  refine ⟨⟨l.ahead.start, isLineStart text l.ahead.start, l.body, mode⟩, ?_, ?_⟩
  · rw [at?, hcut]
    rfl
  · exact ahead_of_body rfl h.isLineStart_start rfl hsame

end Lexer

/-! ## Disciplined items -/

namespace Item

def kind? : Item → Option Kind
  | .token _ kind => some kind
  | .found _ => none
  | .node kind _ => some kind
  | .enclosed .. => some .error

mutual

/-- Whether each token of an item was read as its place says, for an item that stands in a
mode within a node of the kind `parent`. -/
def Disciplined (parent : Kind) (mode : Mode) : Item → Prop
  | .token l kind =>
    l.SameIn (if parent = .error then .statement else mode) ∧ Relabels (some parent) l.kind kind
  | .found _ => True
  | .node kind items => DisciplinedAll kind mode [] items
  | .enclosed kind items => DisciplinedAll kind mode [] items

def DisciplinedAll (kind : Kind) (outer : Mode) (before : List Kind) : List Item → Prop
  | [] => True
  | i :: is => i.Disciplined kind (modeWithin kind outer before) ∧
    DisciplinedAll kind outer (i.kind?.toList ++ before) is

end

mutual

def Starts (offset : Nat) : Item → Prop
  | .token l _ => l.offset = offset
  | .found _ => True
  | .node _ items => StartsAll offset items
  | .enclosed _ items => StartsAll offset items

def StartsAll (offset : Nat) : List Item → Prop
  | [] => True
  | i :: is => i.Starts offset ∧ StartsAll (offset + byteSize (Script.textAll i.scripts)) is

end

theorem startsAll_append {offset : Nat} {is js : List Item} (h : StartsAll offset is)
    (h' : StartsAll (offset + byteSize (Script.textAll (scriptsAll is))) js) : StartsAll offset (is ++ js) := by
  induction is generalizing offset with
  | nil => simpa [scriptsAll, Script.textAll] using h'
  | cons i is ih =>
    refine ⟨h.1, ih h.2 ?_⟩
    simpa [scriptsAll, Script.textAll_append, Nat.add_assoc] using h'

end Item

theorem Account.starts {l l' : Lexer} {items : List Item} (h : Account l items l') :
    Item.StartsAll l.offset items ∧
      l'.offset = l.offset + byteSize (Script.textAll (Item.scriptsAll items)) := by
  have hnext : ∀ (l : Lexer) (kind : Kind) (mode : Mode), (l.next mode).offset =
      l.offset + byteSize (Script.textAll (Item.scriptsAll [.token l kind])) := by
    intro l kind mode
    have hoffset : l.ahead.offset = l.offset := rfl
    simp [Item.scriptsAll, Item.scripts, Script.textAll, Script.text, Token.fullText, Token.stop, Token.start,
      hoffset, Nat.add_assoc]
  induction h with
  | skip | relex => exact ⟨trivial, by simp [Item.scriptsAll, Script.textAll]⟩
  | found => exact ⟨⟨trivial, trivial⟩, by simp [Item.scriptsAll, Item.scripts, Script.textAll]⟩
  | take => exact ⟨⟨rfl, trivial⟩, hnext ..⟩
  | word => exact ⟨⟨rfl, trivial⟩, hnext ..⟩
  | node _ _ ih =>
    exact ⟨⟨ih.1, trivial⟩, by simpa [Item.scriptsAll, Item.scripts, Script.textAll, Script.text] using ih.2⟩
  | enclosed _ _ ih =>
    exact ⟨⟨ih.1, trivial⟩, by simpa [Item.scriptsAll, Item.scripts, Script.textAll, Script.text] using ih.2⟩
  | append _ _ ih ih' =>
    refine ⟨Item.startsAll_append ih.1 (ih.2 ▸ ih'.1), ?_⟩
    rw [ih'.2, ih.2, Item.scriptsAll_append, Script.textAll_append, byteSize_append, Nat.add_assoc]

theorem Account.offset_le {l l' : Lexer} {items : List Item} (h : Account l items l') : l.offset ≤ l'.offset := by
  rw [h.starts.2]
  exact Nat.le_add_right ..

/-! ## Leaves in their contexts -/

/-- Whether a leaf reads again, in the mode of its context, as it stands in the tree. -/
def Place.ReadsAgain (text : List Char) (p : Place) : Prop :=
  ∃ l, Lexer.at? text p.start p.contextMode = some l ∧ l.ahead.span = p.span ∧
    Relabels p.parentKind? l.kind p.kind

def AllReadAgain (text : List Char) (leaves : List Place) : Prop :=
  ∀ p ∈ leaves, p.kind ≠ .whitespace → p.ReadsAgain text

theorem allReadAgain_append {text : List Char} {ps qs : List Place} (h : AllReadAgain text ps)
    (h' : AllReadAgain text qs) : AllReadAgain text (ps ++ qs) := fun p hp =>
  (List.mem_append.mp hp).elim (h p) (h' p)

def leavesFrom (kind : Kind) (start : Nat) (above : List Crumb) (pos : Nat) (before ts : List Tree) :
    List Place :=
  (Place.walkTrees kind start above pos before ts).filterMap Visit.leaf?

theorem leavesFrom_leaf (kind : Kind) (start : Nat) (above : List Crumb) (pos : Nat) (before : List Tree)
    (k : Kind) (t : List Char) (ts : List Tree) :
    leavesFrom kind start above pos before (.leaf k t :: ts) =
      ⟨.leaf k t, pos, ⟨kind, start, before, ts⟩ :: above⟩ ::
        leavesFrom kind start above (pos + byteSize t) (.leaf k t :: before) ts := by
  simp [leavesFrom, Place.walkTrees, Place.walkTree, Visit.leaf?, Tree.size]

theorem leavesFrom_node (kind : Kind) (start : Nat) (above : List Crumb) (pos : Nat) (before : List Tree)
    (k : Kind) (us ts : List Tree) :
    leavesFrom kind start above pos before (.node k us :: ts) =
      leavesFrom k pos (⟨kind, start, before, ts⟩ :: above) pos [] us ++
        leavesFrom kind start above (pos + (Tree.node k us).size) (.node k us :: before) ts := by
  simp [leavesFrom, Place.walkTrees, Place.walkTree, List.filterMap_cons, Visit.leaf?]

def kindsOf (before : List Tree) : List Kind := (before.map Tree.kind).filter (· != .whitespace)

section
variable {text : List Char} {kind : Kind} {start : Nat} {above : List Crumb}

theorem allReadAgain_forest {offset : Nat} {before : List Tree} {ss : List Script}
    (h : ∀ before', kindsOf before' = kindsOf before →
      AllReadAgain text (leavesFrom kind start above (offset + byteSize (Script.leadAll ss)) before'
        (Script.waiting ss))) :
    AllReadAgain text (leavesFrom kind start above offset before (Script.forest ss)) := by
  rw [Script.forest_eq]
  cases hlead : Script.leadAll ss with
  | nil => simpa [hlead, Script.blankLeaf] using h before rfl
  | cons c blanks =>
    rw [Script.blankLeaf, List.singleton_append, leavesFrom_leaf]
    intro p hp
    rcases List.mem_cons.mp hp with rfl | hp
    · exact fun hne => absurd rfl hne
    · refine h _ ?_ p (hlead ▸ hp)
      simp [kindsOf, Tree.kind]

theorem size_lead_tree (offset : Nat) (s : Script) :
    offset + byteSize s.lead + s.tree.size = offset + byteSize s.text := by
  rw [Tree.size_eq_byteSize, ← Script.lead_append_text_tree, byteSize_append, Nat.add_assoc]

theorem readsAgain_token {l : Lexer} {k : Kind} {pos : Nat} {before after : List Tree} (hl : l.Stands text)
    (hpos : pos = l.ahead.start)
    (hsame : l.SameIn (if kind = .error then .statement else
      modeWithin kind (Place.positionMode above) (kindsOf before)))
    (hk : Relabels (some kind) l.kind k) :
    Place.ReadsAgain text ⟨.leaf k l.ahead.text, pos, ⟨kind, start, before, after⟩ :: above⟩ := by
  obtain ⟨m, hat, hspan, hkind⟩ := hl.read_again hsame
  refine ⟨m, hpos ▸ hat, ?_, hkind ▸ hk⟩
  rw [hspan, hpos]
  simp [Place.span, Place.stop, Tree.size, Token.span, Token.stop]

theorem kindsOf_cons {t : Tree} (h : t.kind ≠ .whitespace) (before : List Tree) :
    kindsOf (t :: before) = t.kind :: kindsOf before := by
  simp [kindsOf, h]

theorem Relabels.ne_whitespace {parent? : Option Kind} {l : Lexer} {kind : Kind}
    (h : Relabels parent? l.kind kind) : kind ≠ .whitespace := by
  rcases h with rfl | ⟨-, ⟨rfl, -⟩ | h⟩
  · exact l.kind_ne_whitespace
  · decide
  · exact (show ∀ k ∈ Kind.contextualKeywords, k ≠ .whitespace by decide) kind h

theorem ne_whitespace_of_isNode {kind : Kind} (h : kind.isNode = true) : kind ≠ .whitespace := by
  intro e
  subst e
  exact absurd h (by decide)

/-- Disciplined items become leaves that read again as they stand. -/
theorem allReadAgain_waiting : ∀ (items : List Item) {kind : Kind} {start : Nat} {above : List Crumb}
    {before : List Tree} {offset : Nat},
    Item.DisciplinedAll kind (Place.positionMode above) (kindsOf before) items →
    Script.SoundAll (Item.scriptsAll items) → Item.StartsAll offset items →
    (∀ t ∈ Item.takenAll items, t.1.Stands text) →
      AllReadAgain text (leavesFrom kind start above
        (offset + byteSize (Script.leadAll (Item.scriptsAll items))) before
        (Script.waiting (Item.scriptsAll items)))
  | [], _, _, _, _, _, _, _, _, _ => fun _ hp => by
    simp [Item.scriptsAll, Script.waiting, leavesFrom, Place.walkTrees] at hp
  | i :: is, kind, start, above, before, offset, hd, hsound, hs, ht => by
    rw [Item.scriptsAll, Script.soundAll_append] at hsound
    have htail : ∀ before', kindsOf before' = i.kind?.toList ++ kindsOf before →
        AllReadAgain text (leavesFrom kind start above
          (offset + byteSize (Script.textAll i.scripts) + byteSize (Script.leadAll (Item.scriptsAll is)))
          before' (Script.waiting (Item.scriptsAll is))) := fun before' hb =>
      allReadAgain_waiting is (hb ▸ hd.2) hsound.2 hs.2 fun t h => ht t (by simp [Item.takenAll, h])
    -- blanks before the next tree do not count, so only the kind of this one is new
    have hforest : ∀ s : Script, i.scripts = [s] → s.tree.kind ≠ .whitespace →
        i.kind?.toList = [s.tree.kind] →
        AllReadAgain text (leavesFrom kind start above (offset + byteSize s.lead + s.tree.size)
          (s.tree :: before) (Script.forest (Item.scriptsAll is))) := by
      intro s hscripts hkind hk
      rw [size_lead_tree]
      apply allReadAgain_forest; intro before' hb
      have htext : Script.textAll i.scripts = s.text := by simp [hscripts, Script.textAll]
      have := htail before' (by rw [hb, kindsOf_cons hkind, hk]; rfl)
      rwa [htext] at this
    cases i with
    | found f =>
      have := htail before rfl
      simpa [Item.scriptsAll, Item.scripts, Script.textAll] using this
    | token l k =>
      have hfirst := hd.1
      have hrest := hforest (.token (l.tokenAs k)) rfl hfirst.2.ne_whitespace rfl
      rw [Item.scriptsAll, Item.scripts, List.singleton_append, Script.waiting, Script.tree, leavesFrom_leaf]
      intro p hp
      rcases List.mem_cons.mp hp with rfl | hp
      · have hoffset : l.offset = offset := hs.1
        exact fun _ => readsAgain_token (ht (l, k) (by simp [Item.takenAll, Item.taken]))
          (by rw [← hoffset]; rfl) hfirst.1 hfirst.2
      · exact hrest p hp
    | node k js =>
      have hnode : k.isNode = true := hsound.1.1.1
      have hrest := hforest (.node k (Item.scriptsAll js)) rfl (ne_whitespace_of_isNode hnode) rfl
      rw [Item.scriptsAll, Item.scripts, List.singleton_append, Script.waiting, Script.tree, leavesFrom_node]
      refine allReadAgain_append ?_ hrest
      exact allReadAgain_waiting js hd.1 hsound.1.1.2 hs.1 fun t h => ht t (by simp [Item.takenAll, Item.taken, h])
    | enclosed k js =>
      have hrest := hforest (.enclosing .error (.node k (Item.scriptsAll js)) [] []) rfl
        (by simp [Script.tree, Tree.kind]) rfl
      rw [Item.scriptsAll, Item.scripts, List.singleton_append, Script.waiting, Script.tree, leavesFrom_node]
      refine allReadAgain_append ?_ hrest
      -- the node that was given up is the only child of the problem node
      simp only [Script.tree, Script.forest, List.append_nil]
      rw [leavesFrom_node]
      refine allReadAgain_append ?_ fun p hp => by simp [leavesFrom, Place.walkTrees] at hp
      exact allReadAgain_waiting js hd.1 hsound.1.1.2.2.1.2 hs.1 fun t h =>
        ht t (by simp [Item.takenAll, Item.taken, h])

end

end Dofile
