import Dofile.Editor.Pair
import Dofile.Proofs.DerivationRules
import Dofile.Proofs.Order
import Dofile.Proofs.Regions
import Dofile.Proofs.Shape

/-!
# Constructs in a tree

Wherever a string or a macro reference with a closer stands in a tree, it was read as one: it
begins with its opener, its content is derived within it, and it ends with its closer or, where it
is found to be unterminated, with its line.
-/

namespace Dofile

namespace Construct

/-- What ends a construct behind its content: its closer, or the line, in which case it is found
to be open. -/
def Ends (q : Construct) (found : List Finding) (l m : Lexer) (tail : List Item) : Prop :=
  m.kind = q.closer ∧ tail = [m.item] ∨
    m.EndsLine ∧ tail = [.found ⟨q.problem, l.ahead.span⟩] ∧ ⟨q.problem, l.ahead.span⟩ ∈ found

/-- What was read where a construct stands: from its opener, which is ahead of `l`, up to the end
of its content at `m`. -/
structure Occurs (found : List Finding) (r : Tree × Span) (q : Construct) (l m : Lexer)
    (is tail : List Item) : Prop where
  opens : l.kind = q.opener
  content : Derivation (.within q) (l.next q.mode) is m
  inside : Item.findingsAll is ⊆ found
  ends : q.Ends found l m tail
  tree : r.1 = .node q.kind (Script.waiting (Item.scriptsAll (l.item :: is ++ tail)))
  start : r.2.start = l.ahead.start

namespace Occurs

variable {found : List Finding} {r : Tree × Span} {q : Construct} {l m : Lexer} {is tail : List Item}
  (h : Occurs found r q l m is tail)
include h

theorem account : ∃ m', Account l (l.item :: is ++ tail) m' := by
  have hopener : Account l [l.item] (l.next q.mode) := .take (by rw [h.opens]; exact q.opener_ne_eof) _
  have hcontent := hopener.append h.content.account
  rcases h.ends with ⟨hm, ht⟩ | ⟨-, ht, -⟩ <;> rw [ht]
  · exact ⟨m.next .statement, hcontent.append (.take (by rw [hm]; exact q.closer_ne_eof) _)⟩
  · exact ⟨m, hcontent.append (.found m (Nat.le_add_right ..))⟩

theorem children : r.1.children =
    .leaf q.opener l.ahead.text ::
    (Script.forest (Item.scriptsAll is) ++ Script.forest (Item.scriptsAll tail)) := by
  rw [h.tree, ← h.opens, ← Script.forest_append, ← Item.scriptsAll_append]
  rfl

end Occurs

theorem delimiters_kind (q : Construct) : Pair.delimiters? q.kind = some (q.opener, q.closer) := by
  rcases q with _ | ⟨family, _⟩
  · rfl
  · cases family <;> rfl

end Construct

theorem Kind.isNode_of_delimiters {k : Kind} (h : Pair.delimiters? k ≠ none) : k.isNode = true := by
  unfold Pair.delimiters? at h
  split at h
  · rfl
  · exact (show ∀ label, (localMacro label).isNode = true by decide) _
  · exact (show ∀ label, (compoundString label).isNode = true by decide) _
  · exact absurd rfl h

def Construct.IsRead (found : List Finding) (r : Tree × Span) : Prop :=
  ∃ q l m is tail, Occurs found r q l m is tail

structure Construct.Derived (text : List Char) (found : List Finding) (q : Construct) (l m : Lexer)
    (is : List Item) : Prop where
  stands : l.Stands text
  allowed : ∃ outer : Setting, outer.Opens q
  opens : l.kind = q.opener
  content : Derivation (.within q) (l.next q.mode) is m
  inside : Item.findingsAll is ⊆ found

namespace Item

theorem findingsAll_node (kind : Kind) (is : List Item) : findingsAll [.node kind is] = findingsAll is := by
  simp [findingsAll, findings]

theorem findingsAll_enclosed (kind : Kind) (is : List Item) :
    findingsAll [.enclosed kind is] = findingsAll is := by
  simp [findingsAll, findings]

end Item

/-- Whether a property holds of all that has no delimiters, and of each construct where it is derived in a text:
with its closer, or given up at the end of its line. -/
structure HoldsWhereDerived (text : List Char) (found : List Finding) (P : Tree × Span → Prop) : Prop where
  plain : ∀ r : Tree × Span, Pair.delimiters? r.1.kind = none → P r
  closed : ∀ {q : Construct} {l m : Lexer} {is : List Item}, q.Derived text found l m is → m.kind = q.closer →
    P (.node q.kind (Script.waiting (Item.scriptsAll (l.item :: is ++ [m.item]))), ⟨l.ahead.start, m.ahead.stop⟩)
  givenUp : ∀ {q : Construct} {l m : Lexer} {is : List Item}, q.Derived text found l m is → m.EndsLine →
    ⟨q.problem, l.ahead.span⟩ ∈ found →
    P (.node q.kind (Script.waiting (Item.scriptsAll (l.item :: is))), ⟨l.ahead.start, m.offset⟩)

structure Throughout (P : Tree × Span → Prop) (l : Lexer) (items : List Item) (m : Lexer) : Prop where
  account : Account l items m
  holds : ∀ r ∈ Item.regions l items, P r

namespace Throughout

variable {P : Tree × Span → Prop} {l m m' : Lexer} {is js : List Item} {kind : Kind}

theorem append (h : Throughout P l is m) (h' : Throughout P m js m') : Throughout P l (is ++ js) m' where
  account := h.account.append h'.account
  holds r hr := by
    rw [Item.regions_append h.account, List.mem_append] at hr
    exact hr.elim (h.holds r) (h'.holds r)

theorem nil (h : Account l [] m) : Throughout P l [] m := ⟨h, nofun⟩

theorem finding {f : Finding} (h : Account l [.found f] m) : Throughout P l [.found f] m := ⟨h, nofun⟩

theorem relex (h : Throughout P l is m) (mode : Mode) : Throughout P l is (m.relex mode) := by
  simpa using h.append (nil (.relex m mode))

theorem node (h : Throughout P l is m) (hn : kind.isNode = true)
    (hP : P (.node kind (Script.waiting (Item.scriptsAll is)), ⟨Item.startOf l is, m.offset⟩)) :
    Throughout P l [.node kind is] m := by
  refine ⟨.node hn h.account, ?_⟩
  rw [Item.regions_node h.account (ne_whitespace_of_isNode hn)]
  exact List.forall_mem_cons.mpr ⟨hP, h.holds⟩

section
variable (hplain : ∀ r : Tree × Span, Pair.delimiters? r.1.kind = none → P r)
include hplain

theorem token (h : Account l [.token l kind] m) (hk : kind.isNode = false) (hw : kind ≠ .whitespace) :
    Throughout P l [.token l kind] m := by
  refine ⟨h, ?_⟩
  rw [Item.regions_token l hw]
  refine List.forall_mem_singleton.mpr (hplain _ ?_)
  by_contra hne
  exact absurd (Kind.isNode_of_delimiters hne) (by simp [Tree.kind, hk])

theorem item (he : l.kind ≠ .eof) (mode : Mode) : Throughout P l [l.item] (l.next mode) :=
  token hplain (.take he mode) l.isNode_kind l.kind_ne_whitespace

/-- A node that is given up. The problem node around it is none of those with delimiters. -/
theorem givenUp (h : Throughout P l is m) (hn : kind.isNode = true) {f : Finding} (hf : f.span.start ≤ f.span.stop)
    (hP : P (.node kind (Script.waiting (Item.scriptsAll is)), ⟨Item.startOf l is, m.offset⟩)) :
    Throughout P l [.enclosed kind (is ++ [.found f])] m := by
  refine ⟨.enclosed hn (h.account.append (.found m hf)), ?_⟩
  rw [Item.regions_givenUp h.account (ne_whitespace_of_isNode hn)]
  exact List.forall_mem_cons.mpr ⟨hplain _ rfl, List.forall_mem_cons.mpr ⟨hP, h.holds⟩⟩

theorem bracedName (h : Reading.bracedName.leads l is m) : Throughout P l is m := by
  have haccount := Reading.bracedName.account h
  rcases h with ⟨-, he, rfl, rfl⟩ | ⟨-, ⟨-, rfl, rfl⟩ | ⟨-, rfl, rfl⟩⟩
  · exact item hplain he _
  · exact finding haccount
  · exact nil haccount

end

end Throughout

namespace Derivation

open Reading (start_le_of_braces)

variable {outer : Setting} {l l' : Lexer} {items : List Item} {text : List Char} {found : List Finding}
  {P : Tree × Span → Prop}

theorem throughout (h : Derivation outer l items l') (hstands : l.Stands text) (hfound : Item.findingsAll items ⊆ found)
    (hP : HoldsWhereDerived text found P) : Throughout P l items l' := by
  have hplain := hP.plain
  have hordered : ∀ l : Lexer, l.ahead.span.start ≤ l.ahead.span.stop := fun _ => Nat.le_add_right ..
  have hmissing : ∀ (l : Lexer) (problem : Problem), Throughout P l [.found ⟨problem, l.ahead.span⟩] l :=
    fun l _ => .finding (.found l (hordered l))
  have hkind : ∀ {l : Lexer} {kind : Kind} (mode : Mode), l.kind = kind → kind ≠ .eof →
      Throughout P l [l.item] (l.next mode) := fun mode hl he => .item hplain (hl ▸ he) mode
  have hbraces : ∀ {l b : Lexer}, l.kind = .dollar → b = l.next .globalMacro → b.kind = .leftBrace →
      Throughout P l [l.item, b.item] (b.next .globalMacro) := by
    intro l b hl hb hbrace
    subst hb
    exact (hkind _ hl (by decide)).append (hkind _ hbrace (by decide))
  induction h with
  | nil outer l => exact .nil (.skip l)
  | append h _ ih ih' =>
    rw [Item.findingsAll_append, List.append_subset] at hfound
    exact (ih hstands hfound.1).append (ih' (h.account.stands hstands).1 hfound.2)
  | token h => exact .item hplain h.ne_eof _
  | word h hk mode =>
    exact .token hplain (.word h hk mode) (Kind.isNode_of_mem_wordLabels hk) (Kind.ne_whitespace_of_mem_wordLabels hk)
  | missingName l => exact hmissing l _
  | @node l l' is kind hk h hmoves _ ih =>
    rw [Item.findingsAll_node] at hfound
    have hnone : ∀ k ∈ Kind.lineNodes, Pair.delimiters? k = none := by decide
    exact (ih hstands hfound).node (Kind.isNode_of_mem_lineNodes hk) (hplain _ (hnone kind hk))
  | problem hp h hmoves ih =>
    rw [Item.findingsAll_node] at hfound
    have hcontent := ih hstands fun f hf => hfound (List.mem_cons_of_mem _ hf)
    exact ((hmissing _ _).append hcontent).node Kind.isNode_error (hplain _ rfl)
  | unknown h => exact ((hmissing _ _).append (hkind _ h (by decide))).node Kind.isNode_error (hplain _ rfl)
  | openComment h => exact ((hmissing _ _).append (hkind _ h.1 (by decide))).node Kind.isNode_error (hplain _ rfl)
  | @openBlock l m l' is kind problem hk h hmoves hl' _ ih =>
    rw [Item.findingsAll_enclosed, Item.findingsAll_append, List.append_subset] at hfound
    have hnone : ∀ b ∈ Problem.openBlocks, Pair.delimiters? b.1 = none := by decide
    have hblock : Throughout P l [.enclosed kind (is ++ [.found ⟨problem, l.ahead.span⟩])] m :=
      (ih hstands hfound.1).givenUp hplain (Kind.isNode_of_mem_openBlocks hk) (hordered l) (hplain _ (hnone _ hk))
    rcases hl' with rfl | rfl
    · exact hblock
    · exact hblock.relex _
  | plainMacro hl hm hname =>
    subst hm
    exact ((hkind _ hl (by decide)).append (hkind _ hname (by decide))).node (by decide) (hplain _ rfl)
  | bracedMacro hl hb hbrace hname hm =>
    exact (((hbraces hl hb hbrace).append (.bracedName hplain hname)).append (hkind _ hm (by decide))).node
      (by decide) (hplain _ rfl)
  | openMacro hl hb hbrace hname hm =>
    exact (((hbraces hl hb hbrace).append (.bracedName hplain hname)).givenUp hplain (by decide)
      (start_le_of_braces hb hname) (hplain _ rfl)).relex _
  | @closed outer q l m is hq hl h hm ih =>
    rw [Item.findingsAll_node, Item.findingsAll_append, List.append_subset] at hfound
    have hcontent := (hkind q.mode hl q.opener_ne_eof).append (ih (hstands.next _) hfound.1)
    exact (hcontent.append (hkind outer.mode hm q.closer_ne_eof)).node q.isNode_kind
      (hP.closed ⟨hstands, ⟨outer, hq⟩, hl, h, hfound.1⟩ hm)
  | @unclosed outer q l m is hq hl h hm ih =>
    rw [Item.findingsAll_enclosed, Item.findingsAll_append, List.append_subset] at hfound
    have hcontent := (hkind q.mode hl q.opener_ne_eof).append (ih (hstands.next _) hfound.1)
    exact (hcontent.givenUp hplain q.isNode_kind (hordered l)
      (hP.givenUp ⟨hstands, ⟨outer, hq⟩, hl, h, hfound.1⟩ hm (hfound.2 (List.mem_singleton_self _)))).relex _

end Derivation

namespace Construct.Derived

variable {text : List Char} {found : List Finding} {q : Construct} {l m : Lexer} {is : List Item}
  (h : q.Derived text found l m is)
include h

theorem isRead_closed (hm : m.kind = q.closer) : IsRead found
    (.node q.kind (Script.waiting (Item.scriptsAll (l.item :: is ++ [m.item]))), ⟨l.ahead.start, m.ahead.stop⟩) :=
  ⟨q, l, m, is, [m.item], h.opens, h.content, h.inside, .inl ⟨hm, rfl⟩, rfl, rfl⟩

theorem isRead_givenUp (hm : m.EndsLine) (hf : ⟨q.problem, l.ahead.span⟩ ∈ found) : IsRead found
    (.node q.kind (Script.waiting (Item.scriptsAll (l.item :: is))), ⟨l.ahead.start, m.offset⟩) := by
  refine ⟨q, l, m, is, [.found ⟨q.problem, l.ahead.span⟩], h.opens, h.content, h.inside, .inr ⟨hm, rfl, hf⟩, ?_, rfl⟩
  simp [Item.scriptsAll, Item.scriptsAll_append, Item.scripts]

end Construct.Derived

namespace Parse

variable {text : List Char} (hsize : byteSize text ≤ maxOffset) {p : Place} (hp : p ∈ (ofText text).root.nodes)
include hsize hp

/-- What holds where strings and macro references are derived, and of all that is neither, holds of every node. -/
theorem holds_of_node {P : Tree × Span → Prop} (hP : HoldsWhereDerived text (ofText text).findings P)
    (hsolid : p.kind ≠ .whitespace) : P p.region := by
  obtain ⟨items, l, h⟩ := Reading.exists_lines text
  have hroot : (ofText text).root.region.1.kind = .sourceFile := by
    rw [Place.region, root, Place.ofRoot, ofText_eq h hsize]
    rfl
  have hitems := (Reading.derives_lines _ trivial h).throughout (Lexer.stands_ofText text)
    (by rw [ofText_eq h hsize]; exact fun _ => id) hP
  have hmem : p.region ∈ (ofText text).root.parts.filter (·.1.kind != .whitespace) :=
    List.mem_filter.mpr ⟨List.mem_map_of_mem (Place.mem_nodes_iff.mp hp).1, bne_iff_ne.mpr hsolid⟩
  rw [regions_root h hsize, List.mem_cons, List.mem_append, List.mem_singleton] at hmem
  rcases hmem with heq | hmem | heq
  · exact hP.plain _ (by rw [heq, hroot]; rfl)
  · exact hitems.holds _ hmem
  · exact hP.plain _ (by rw [heq]; rfl)

/-- Every node of a parse that is a string or a macro reference with a closer was read as one. -/
theorem isRead_of_node (hk : Pair.delimiters? p.kind ≠ none) : Construct.IsRead (ofText text).findings p.region := by
  have hP : HoldsWhereDerived text (ofText text).findings
      fun r => Pair.delimiters? r.1.kind ≠ none → Construct.IsRead (ofText text).findings r :=
    ⟨fun _ hnone hne => absurd hnone hne, fun h hm _ => h.isRead_closed hm, fun h hm hf _ => h.isRead_givenUp hm hf⟩
  exact holds_of_node hsize hp hP (ne_whitespace_of_isNode (Kind.isNode_of_delimiters hk)) hk

end Parse

end Dofile
