import Dofile.Typed
import Dofile.Proofs.Enclosures

/-!
# Strings, macro references and comments with and without their ends

No string and no macro reference leaves its line, and one that is found to be unterminated ends
with its line. The tree tells whether a string or a comment has its end just as the findings do.
For compound strings and local macro references it does so as far as the last leaf is their own.
-/

namespace Dofile

def Problem.openConstructs : List Problem := [.unterminatedString, .unterminatedCompoundString, .unterminatedLocalMacro]

theorem Problem.category_of_openConstructs {p : Problem} (h : p ∈ openConstructs) : p.category = .unterminated :=
  (show ∀ p ∈ openConstructs, p.category = .unterminated by decide) p h

/-- An open construct ends with the line of its opener. -/
theorem Finding.Tells.stop_eq {text : List Char} {f : Finding} {r : Tree × Span} (h : f.Tells text r)
    (hf : f.problem ∈ Problem.openConstructs) : lineStop? text f.span.stop = some r.2.stop := by
  cases h with
  | construct _ _ hline => exact hline
  | reference | comment | mata => simp [Problem.openConstructs] at hf

def Kind.openMessage? : Kind → Option String
  | doubleString => some "unterminated string"
  | compoundString _ => some "unterminated compound string"
  | localMacro _ => some "unterminated local macro"
  | _ => none

theorem Construct.openMessage_kind (q : Construct) : q.kind.openMessage? = some q.problem.message := by
  rcases q with _ | ⟨family, _⟩
  · rfl
  · cases family <;> rfl

/-- What is found of an open construct is found at its opener. -/
theorem Finding.Tells.opener_cases {text : List Char} {f : Finding} {r : Tree × Span} (h : f.Tells text r)
    (hk : r.1.kind.isDelimited = true) (hne : r.1.kind ≠ .globalMacro) :
    r.1.kind.openMessage? = some f.problem.message ∧
      ∃ kind word ts, r.1.children = .leaf kind word :: ts ∧ f.span = ⟨r.2.start, r.2.start + byteSize word⟩ := by
  cases h with
  | @construct q word ts s stop _ hspan => exact ⟨q.openMessage_kind, _, _, _, rfl, by rw [← hspan]⟩
  | reference => exact absurd rfl hne
  | comment | mata => cases hk

theorem Finding.Tells.ne_comment {text : List Char} {f : Finding} {r : Tree × Span} (h : f.Tells text r) :
    r.1.kind ≠ .comment := by
  cases h with
  | @construct q => exact Kind.ne_comment_of_isDelimited q.isDelimited_kind
  | reference | comment | mata => exact nofun

def Parse.openMessages : List String :=
  ["unterminated string", "unterminated compound string", "unterminated local macro"]

theorem Kind.isDelimited_of_openMessage {k : Kind} {message : String} (h : k.openMessage? = some message) :
    k.isDelimited = true ∧ k ≠ .globalMacro := by
  cases k with
  | doubleString | compoundString | localMacro => exact ⟨rfl, nofun⟩
  | _ => cases h

theorem Kind.mem_openMessages {k : Kind} {message : String} (h : k.openMessage? = some message) :
    message ∈ Parse.openMessages := by
  unfold Kind.openMessage? at h
  split at h <;> cases h <;> decide

namespace Parse

def SaysOpen (p : Parse) (messages : List String) (n : Place) : Prop :=
  ∃ first ∈ n.firstLeaf?, ∃ d ∈ p.diagnostics, d.message ∈ messages ∧ d.span = first.span

section
variable {text : List Char} (hsize : byteSize text ≤ maxOffset) {n : Place} (hn : n ∈ (ofText text).root.nodes)
  (hk : n.kind.isDelimited = true)
include hsize hn hk

theorem oneLine_of_node : OneLine n.text := by
  obtain ⟨_, _, hsits⟩ := sits_of_node hsize hn
  exact Tree.oneLine_of_all _ (hsits.nests.all_inner (.inr hk))

theorem tells_of_says {d : Diagnostic} (hd : d ∈ (ofText text).diagnostics) {first : Place}
    (hfirst : first ∈ n.firstLeaf?) (hmessage : d.message ∈ openMessages) (hspan : d.span = first.span) :
    ∃ f : Finding, f.Tells text n.region ∧ f.problem ∈ Problem.openConstructs ∧ f.span = first.span := by
  obtain ⟨_, _, hsits⟩ := sits_of_node hsize hn
  obtain ⟨kind, word, ts, hchildren⟩ := hsits.nests.first_leaf hk
  obtain ⟨a, -, -, hstart, ha⟩ := Place.first_of_leaf hchildren
  obtain rfl : a = first := Option.some.inj (ha.symm.trans hfirst)
  obtain ⟨problem, hproblem, hproblem'⟩ : ∃ problem ∈ Problem.openConstructs, d.message = problem.message :=
    (List.mem_map.mp (show d.message ∈ Problem.openConstructs.map Problem.message from hmessage)).imp
      fun _ h => ⟨h.1, h.2.symm⟩
  obtain ⟨f, hf, rfl, hat⟩ := exists_finding hd problem hproblem'
  have hfspan : f.span = a.span := hat.trans hspan
  have hcategory := Problem.category_of_openConstructs hproblem
  exact ⟨f, tells_of_start hsize (Place.mem_nodes_iff.mp hn).1 ⟨kind, word, ts, hchildren⟩ hf hcategory
    ((congrArg Span.start hfspan).trans hstart), hproblem, hfspan⟩

end

/-- No string and no macro reference holds a line break, and one that is found to be unterminated at its opener
ends with the line of its opener. -/
theorem delimited_on_one_line (text : List Char) (hsize : byteSize text ≤ maxOffset) :
    let p := ofText text
    ∀ n ∈ p.root.nodes, n.kind.isDelimited = true →
      (n.span.slice? text = some n.text ∧ '\n' ∉ n.text ∧ '\r' ∉ n.text) ∧
        ∀ first ∈ n.firstLeaf?, ∀ d ∈ p.diagnostics, d.message ∈ openMessages → d.span = first.span →
          lineStop? text first.stop = some n.stop := by
  intro p n hn hk
  have hline := oneLine_of_node hsize hn hk
  obtain ⟨items, l, h⟩ := Reading.exists_lines text
  have hslice := Place.slice_span rfl (Place.mem_nodes_iff.mp hn).1
  rw [show (ofText text).root.text = text from (holds_of_lines h hsize).text_eq] at hslice
  refine ⟨⟨hslice, fun hmem => absurd (hline _ hmem) (by decide), fun hmem => absurd (hline _ hmem) (by decide)⟩, ?_⟩
  intro first hfirst d hd hmessage hspan
  obtain ⟨f, htells, hproblem, hat⟩ := tells_of_says hsize hn hk hd hfirst hmessage hspan
  have hstop := htells.stop_eq hproblem
  rw [hat] at hstop
  exact hstop

theorem delimited_on_one_line_open :
    let text := "display `\"a \"b\r\"c `d $\x7be\ndisplay `f\"g\"' $h \"i".toList
    let p := ofText text
    byteSize text ≤ maxOffset ∧ ∀ n ∈ p.root.nodes, n.kind.isDelimited = true →
      (n.span.slice? text = some n.text ∧ '\n' ∉ n.text ∧ '\r' ∉ n.text) ∧
        ∀ first ∈ n.firstLeaf?, ∀ d ∈ p.diagnostics, d.message ∈ openMessages → d.span = first.span →
          lineStop? text first.stop = some n.stop := by
  have hsize : byteSize "display `\"a \"b\r\"c `d $\x7be\ndisplay `f\"g\"' $h \"i".toList ≤ maxOffset := by decide
  exact ⟨hsize, delimited_on_one_line _ hsize⟩

end Parse

/-! ## What the tree tells -/

namespace Place

variable {n c : Place}

/-- The last child of a node, if it is a leaf, is the last leaf of the node. -/
theorem lastLeaf_of_leaf (h : n.children.getLast? = some c) (hleaf : c.isLeaf = true) : n.lastLeaf? = some c := by
  have hnode := isLeaf_of_mem_children (List.mem_of_mem_getLast? h)
  obtain ⟨before, hchildren⟩ := List.getLast?_eq_some_iff.mp h
  rw [lastLeaf?, leaves_node hnode, hchildren, List.flatMap_append, List.flatMap_singleton, leaves_leaf hleaf,
    List.getLast?_append_cons]
  rfl

/-- A node whose last child is a token ends with it. -/
theorem endsWith_of_token {kind : Kind} {ts : List Tree} {c : Tree} (hchildren : n.tree.children = ts ++ [c])
    (hc : c.IsToken kind) : Typed.endsWith kind n = true ∧ n.children.getLast? = n.lastLeaf? := by
  obtain ⟨word, rfl, -⟩ := hc
  obtain ⟨last, hlast, htree, -⟩ := last_of_tree (by rw [hchildren, List.getLast?_concat])
  have hleaf := lastLeaf_of_leaf hlast (by rw [isLeaf, htree]; rfl)
  refine ⟨?_, hlast.trans hleaf.symm⟩
  rw [Typed.endsWith, hleaf, Option.any_some, Place.kind, htree]
  exact beq_self_eq_true kind

/-- A node that ends with a leaf of its own has a child of that kind. -/
theorem kind_mem_of_endsWith {kind : Kind} (hends : Typed.endsWith kind n = true)
    (hlast : n.children.getLast? = n.lastLeaf?) : kind ∈ n.tree.children.map Tree.kind := by
  obtain ⟨last, hleaf, hkind⟩ := (Option.any_eq_true _ _).mp hends
  have hmem : last ∈ n.children := List.mem_of_mem_getLast? (hlast.trans hleaf)
  rw [← beq_iff_eq.mp hkind]
  exact List.mem_map_of_mem (tree_mem_children hmem)

section
variable {complete : Bool} {outer : Setting} (h : Tree.Nests complete outer n.tree)
include h

theorem isTerminatedDoubleString_iff (hk : n.kind = .doubleString) :
    Typed.isTerminatedDoubleString n = false ↔ n.tree.IsOpen := by
  have hkind : n.tree.kind = .doubleString := hk
  have hcount : (n.children.filter (·.kind == .doubleQuote)).length =
      (n.tree.children.map Tree.kind).count .doubleQuote := by
    rw [← map_tree_children_eq, List.map_map, List.count, List.countP_map, List.countP_eq_length_filter]
    rfl
  obtain ⟨q, ks, hq, hkinds, hcloser⟩ := h.kinds_cases (by rw [hkind]; rfl) (by rw [hkind]; decide)
  obtain rfl := Construct.eq_doubleString_of_kind (hq.symm.trans hkind)
  have hcontent : ks.count .doubleQuote = 0 := List.count_eq_zero.mpr hcloser
  rw [h.open_iff (by rw [hkind]; rfl), Typed.isTerminatedDoubleString, hcount, hkinds, List.count_cons,
    List.count_append, hcontent]
  cases complete <;> decide

/-- A compound string or a local macro reference is open unless it ends with a closer that is its own child. -/
theorem open_iff_endsWith {family : Family} (hk : Family.ofKind? n.kind = some family) :
    n.tree.IsOpen ↔ Typed.endsWith family.closer n = false ∨ n.children.getLast? ≠ n.lastLeaf? := by
  obtain ⟨hdelimited, hmacro⟩ := Family.isDelimited_of_ofKind hk
  obtain ⟨q, o, ts, cs, -, hkind, hchildren, ⟨word, rfl, -⟩, hts, hcs⟩ := h.construct_cases hdelimited hmacro
  obtain ⟨hcloser, hne⟩ : q.closer = family.closer ∧ q.opener ≠ q.closer := by
    rw [show n.kind = q.kind from hkind] at hk
    rcases q with _ | ⟨f, _⟩
    · cases hk
    · cases f <;> cases hk <;> exact ⟨rfl, nofun⟩
  rw [h.open_iff hdelimited, ← hcloser]
  cases complete with
  | true =>
    obtain ⟨c, _, hc, hnil, rfl⟩ := List.forall₂_cons_left_iff.mp hcs
    cases hnil
    obtain ⟨hends, hlast⟩ := endsWith_of_token (hchildren.trans List.cons_append.symm) hc
    simp [hends, hlast]
  | false =>
    cases hcs
    refine iff_of_true rfl (or_iff_not_imp_left.mpr fun hends hlast => ?_)
    have hmem := kind_mem_of_endsWith (Bool.not_eq_false _ ▸ hends) hlast
    rw [hchildren, List.append_nil, List.map_cons, List.mem_cons] at hmem
    exact hmem.elim (fun e => hne e.symm) (Tree.closer_not_mem hts)

end

end Place

namespace Parse

section
variable {text : List Char} (hsize : byteSize text ≤ maxOffset) {n : Place} (hn : n ∈ (ofText text).root.nodes)
include hsize hn

theorem says_of_open (hk : n.kind.isDelimited = true) (hne : n.kind ≠ .globalMacro) (hopen : n.tree.IsOpen) :
    ∃ message ∈ n.kind.openMessage?, (ofText text).SaysOpen [message] n := by
  obtain ⟨f, hf, htells⟩ := tells_of_open hsize (Place.mem_nodes_iff.mp hn).1 hopen
  obtain ⟨hmessage, kind, word, ts, hchildren, hspan⟩ := htells.opener_cases hk hne
  obtain ⟨first, -, htree, hstart, hfirst⟩ := Place.first_of_leaf hchildren
  have hat : f.span = first.span := by
    rw [hspan, Place.span, Place.stop, htree, hstart]
    rfl
  exact ⟨_, hmessage, first, hfirst, f.diagnostic, List.mem_map_of_mem hf, List.mem_singleton_self _, hat⟩

theorem says_iff_open (hk : n.kind.isDelimited = true) (hne : n.kind ≠ .globalMacro) :
    (ofText text).SaysOpen openMessages n ↔ n.tree.IsOpen := by
  constructor
  · rintro ⟨first, hfirst, d, hd, hmessage, hspan⟩
    obtain ⟨f, htells, -⟩ := tells_of_says hsize hn hk hd hfirst hmessage hspan
    exact htells.isOpen hk
  · intro hopen
    obtain ⟨message, hmessage, first, hfirst, d, hd, hown, hspan⟩ := says_of_open hsize hn hk hne hopen
    exact ⟨first, hfirst, d, hd, List.mem_singleton.mp hown ▸ Kind.mem_openMessages hmessage, hspan⟩

theorem isTerminatedComment_iff (hk : n.kind = .comment) :
    Typed.isTerminatedComment n = false ↔ (ofText text).SaysOpen ["unterminated block comment"] n := by
  have hmem := (Place.mem_nodes_iff.mp hn).1
  rcases ofComment_of_node hsize hmem hk with ⟨kind, word, htree⟩ | ⟨⟨word, htree⟩, hf⟩
  · have hchildren : n.tree.children = [.leaf kind word] := congrArg Tree.children htree
    have hterminated : Typed.isTerminatedComment n = true := by
      obtain ⟨tree, start, above⟩ := n
      obtain rfl : tree = _ := htree
      rfl
    rw [hterminated]
    refine ⟨nofun, fun ⟨first, hfirst, d, hd, hmessage, hspan⟩ => ?_⟩
    obtain ⟨a, -, -, hstart, ha⟩ := Place.first_of_leaf hchildren
    obtain rfl : a = first := Option.some.inj (ha.symm.trans hfirst)
    obtain ⟨f, hf, hproblem, hat⟩ := exists_finding hd .unterminatedBlockComment
      (List.mem_singleton.mp hmessage)
    have htells := tells_of_start hsize hmem ⟨kind, word, [], hchildren⟩ hf (by rw [hproblem]; rfl)
      ((congrArg Span.start (hat.trans hspan)).trans hstart)
    exact absurd hk htells.ne_comment
  · obtain ⟨tree, start, above⟩ := n
    obtain rfl : tree = .node .comment [.node .error [.leaf .blockComment word]] := htree
    exact ⟨fun _ => ⟨_, rfl, _, List.mem_map_of_mem hf, List.mem_singleton_self _, rfl⟩, fun _ => rfl⟩

end

/-- A string in double quotes and a comment are found to be unterminated just where their nodes say so. Compound
strings and local macro references are where they do not end with their closer, or where the closer that they end
with is one of a node within. The message is that of the node. -/
theorem termination_agrees (text : List Char) (hsize : byteSize text ≤ maxOffset) :
    let p := ofText text
    ∀ n ∈ p.root.nodes,
      (n.kind = .doubleString → (Typed.isTerminatedDoubleString n = false ↔ p.SaysOpen openMessages n)) ∧
      (∀ family : Family, Family.ofKind? n.kind = some family → (p.SaysOpen openMessages n ↔
        Typed.endsWith family.closer n = false ∨ n.children.getLast? ≠ n.lastLeaf?)) ∧
      (∀ message ∈ n.kind.openMessage?, p.SaysOpen openMessages n → p.SaysOpen [message] n) ∧
      (n.kind = .comment → (Typed.isTerminatedComment n = false ↔ p.SaysOpen ["unterminated block comment"] n)) := by
  intro p n hn
  obtain ⟨_, _, hsits⟩ := sits_of_node hsize hn
  refine ⟨fun hk => ?_, fun family hk => ?_, fun message hmessage hsays => ?_, isTerminatedComment_iff hsize hn⟩
  · rw [says_iff_open hsize hn (by rw [hk]; rfl) (by rw [hk]; decide)]
    exact Place.isTerminatedDoubleString_iff hsits.nests hk
  · obtain ⟨hdelimited, hne⟩ := Family.isDelimited_of_ofKind hk
    rw [says_iff_open hsize hn hdelimited hne]
    exact Place.open_iff_endsWith hsits.nests hk
  · obtain ⟨hdelimited, hne⟩ := Kind.isDelimited_of_openMessage hmessage
    have hopen := (says_iff_open hsize hn hdelimited hne).mp hsays
    obtain ⟨own, hown, hsays⟩ := says_of_open hsize hn hdelimited hne hopen
    rwa [Option.some.inj (hmessage.symm.trans hown)]

theorem termination_agrees_mixed :
    let text := "display `\"a \"b\ndisplay `c`d' `\"e\"'\n/* f".toList
    let p := ofText text
    byteSize text ≤ maxOffset ∧ ∀ n ∈ p.root.nodes,
      (n.kind = .doubleString → (Typed.isTerminatedDoubleString n = false ↔ p.SaysOpen openMessages n)) ∧
      (∀ family : Family, Family.ofKind? n.kind = some family → (p.SaysOpen openMessages n ↔
        Typed.endsWith family.closer n = false ∨ n.children.getLast? ≠ n.lastLeaf?)) ∧
      (∀ message ∈ n.kind.openMessage?, p.SaysOpen openMessages n → p.SaysOpen [message] n) ∧
      (n.kind = .comment → (Typed.isTerminatedComment n = false ↔ p.SaysOpen ["unterminated block comment"] n)) := by
  have hsize : byteSize "display `\"a \"b\ndisplay `c`d' `\"e\"'\n/* f".toList ≤ maxOffset := by decide
  exact ⟨hsize, termination_agrees _ hsize⟩

/-- The outer reference is open, but it ends with the quote of the inner one. -/
theorem termination_disagrees_at_inner_closer :
    let p := ofText "display `a`b'\n".toList
    ∃ n ∈ p.root.nodes, Family.ofKind? n.kind = some .localMacro ∧ Typed.endsWith .quote n = true ∧
      p.SaysOpen openMessages n := by
  unfold SaysOpen
  decide +kernel

end Parse

end Dofile
