import Dofile.Proofs.Reports

/-!
# Where findings are

A finding is recorded at the token ahead, at the first token of what is left open, or from a `$` up to
where its braces are given up. In the first case the token has yet to be taken, and may be read in another
mode by then. It is not, so every finding is where a leaf is, or where a macro reference is.
-/

namespace Dofile

/-- Where a finding among some items is: at a token that is taken there, or at the one ahead, which the next
step in a line takes just as it is. Macro references without an end are told of as a whole. -/
inductive Finding.Placed (outer : Setting) (items : List Item) (m : Lexer) (f : Finding) : Prop
  | reference (hproblem : f.problem = .unterminatedGlobalMacro)
  | taken {t : Lexer × Kind} (ht : t ∈ Item.takenAll items) (hspan : t.1.ahead.span = f.span)
  | ahead (houter : outer = .line) (hmode : m.mode = .statement) (hspan : m.ahead.span = f.span)

namespace Finding.Placed

variable {outer : Setting} {items : List Item} {l m : Lexer} {f : Finding}

/-- More items around those of a finding that is within a construct leave it where it is. -/
theorem within {q : Construct} {is : List Item} (h : f.Placed (.within q) is l)
    (hsub : Item.takenAll is ⊆ Item.takenAll items) : f.Placed outer items m := by
  cases h with
  | reference hproblem => exact .reference hproblem
  | taken ht hspan => exact .taken (hsub ht) hspan
  | ahead houter => cases houter

theorem mono {js : List Item} (h : f.Placed outer items m) (hsub : Item.takenAll items ⊆ Item.takenAll js) :
    f.Placed outer js m := by
  cases h with
  | reference hproblem => exact .reference hproblem
  | taken ht hspan => exact .taken (hsub ht) hspan
  | ahead houter hmode hspan => exact .ahead houter hmode hspan

theorem node (h : f.Placed outer items m) (kind : Kind) : f.Placed outer [.node kind items] m :=
  h.mono (by simp [Item.takenAll, Item.taken])

theorem givenUp (h : f.Placed outer items m) (kind : Kind) (g : Finding) :
    f.Placed outer [.enclosed kind (items ++ [.found g])] m :=
  h.mono (by simp [Item.takenAll, Item.taken, Item.takenAll_append])

/-- A lexer in statements that is told to read statements stays as it is. -/
theorem relex (h : f.Placed outer items m) : f.Placed outer items (m.relex .statement) := by
  cases h with
  | reference hproblem => exact .reference hproblem
  | taken ht hspan => exact .taken ht hspan
  | ahead houter hmode hspan =>
    have hsame : m.relex .statement = m := by rw [← hmode]; rfl
    exact .ahead houter rfl (hsame.symm ▸ hspan)

end Finding.Placed

namespace Derivation

open Reading (bracedName)

variable {outer : Setting} {l l' m : Lexer} {items is : List Item}

/-- The first token that a derivation takes is the one ahead, read as it is ahead. -/
theorem first_taken (h : Derivation outer l items l') :
    Item.takenAll items = [] ∧ l' = l ∨ ∃ kind ts, Item.takenAll items = (l, kind) :: ts := by
  induction h with
  | nil | missingName => exact .inl ⟨rfl, rfl⟩
  | append _ _ ih ih' =>
    rw [Item.takenAll_append]
    rcases ih with ⟨hnone, rfl⟩ | ⟨kind, ts, hts⟩
    · rw [hnone]
      exact ih'
    · exact .inr ⟨kind, ts ++ _, by rw [hts]; rfl⟩
  | node _ _ hmoves _ ih | problem _ _ hmoves ih =>
    rcases ih with ⟨-, rfl⟩ | ⟨kind, ts, hts⟩
    · exact absurd hmoves (Nat.lt_irrefl _)
    · exact .inr ⟨kind, ts, by simp [Item.takenAll, Item.taken, hts]⟩
  | openBlock _ _ _ _ hstart =>
    obtain ⟨kind, js, rfl⟩ := hstart
    exact .inr ⟨kind, _, rfl⟩
  | _ => exact .inr ⟨_, _, rfl⟩

theorem taken_of_moves (h : Derivation outer l items m) (hmoves : m.rest.length < l.rest.length) :
    ∃ kind, (l, kind) ∈ Item.takenAll items := by
  rcases h.first_taken with ⟨-, rfl⟩ | ⟨kind, ts, hts⟩
  · exact absurd hmoves (Nat.lt_irrefl _)
  · exact ⟨kind, hts ▸ List.mem_cons_self⟩

/-- The name that braces lack is missed at the closing brace. -/
theorem findings_bracedName (h : bracedName.leads l is m) :
    ∀ f ∈ Item.findingsAll is, m.kind = .rightBrace ∧ m.ahead.span = f.span := by
  rcases h with ⟨-, -, rfl, -⟩ | ⟨-, ⟨hk, rfl, rfl⟩ | ⟨-, rfl, -⟩⟩
  · exact nofun
  · intro f hf
    rw [List.mem_singleton.mp hf]
    exact ⟨hk, rfl⟩
  · exact nofun

/-- What is ahead behind some items is what those after them take first. -/
theorem placed_append {js : List Item} {f : Finding} (h : f.Placed outer is l) (h' : Derivation outer l js m) :
    f.Placed outer (is ++ js) m := by
  cases h with
  | reference hproblem => exact .reference hproblem
  | taken ht hspan => exact .taken (by rw [Item.takenAll_append]; exact List.mem_append_left _ ht) hspan
  | ahead houter hmode hspan =>
    rcases h'.first_taken with ⟨-, rfl⟩ | ⟨kind, ts, hts⟩
    · exact .ahead houter hmode hspan
    · have hnext : (l, kind) ∈ Item.takenAll (is ++ js) := by
        rw [Item.takenAll_append, hts]
        exact List.mem_append_right _ List.mem_cons_self
      exact .taken hnext hspan

theorem placed (h : Derivation outer l items m) : ∀ f ∈ Item.findingsAll items, f.Placed outer items m := by
  induction h with
  | nil | token | word | plainMacro => exact nofun
  | append _ h' ih ih' =>
    intro f hf
    rw [Item.findingsAll_append, List.mem_append] at hf
    rcases hf with hf | hf
    · exact placed_append (ih f hf) h'
    · exact (ih' f hf).mono (by rw [Item.takenAll_append]; exact List.subset_append_right _ _)
  | missingName l _ hmode =>
    intro f hf
    rw [List.mem_singleton.mp hf]
    exact .ahead rfl hmode rfl
  | node _ _ _ _ ih =>
    intro f hf
    rw [Item.findingsAll_node] at hf
    exact (ih f hf).node _
  | @problem l m is problem _ h hmoves ih =>
    intro f hf
    rw [Item.findingsAll_node] at hf
    rcases List.mem_cons.mp hf with rfl | hf
    · obtain ⟨kind, hmem⟩ := h.taken_of_moves hmoves
      exact .taken (t := (l, kind)) (by simpa [Item.takenAll, Item.taken] using hmem) rfl
    · exact (ih f hf).mono (by simp [Item.takenAll, Item.taken])
  | unknown | openComment =>
    intro f hf
    obtain rfl := List.mem_singleton.mp hf
    exact .taken List.mem_cons_self rfl
  | @openBlock l m l' is kind problem _ _ _ hl' hstart ih =>
    intro f hf
    rw [Item.findingsAll_givenUp, List.mem_append, List.mem_singleton] at hf
    rcases hf with hf | rfl
    · have hplaced := (ih f hf).givenUp kind ⟨problem, l.ahead.span⟩
      rcases hl' with rfl | rfl
      · exact hplaced
      · exact hplaced.relex
    · obtain ⟨kind, js, rfl⟩ := hstart
      exact .taken List.mem_cons_self rfl
  | @bracedMacro outer l b m is _ _ _ hname _ =>
    intro f hf
    have hfound : f ∈ Item.findingsAll is := by
      simpa [Item.findingsAll, Item.findings, Item.findingsAll_append, Lexer.item] using hf
    obtain ⟨-, hspan⟩ := findings_bracedName hname f hfound
    exact .taken (t := (m, m.kind)) (by simp [Item.takenAll, Item.taken, Item.takenAll_append, Lexer.item]) hspan
  | @openMacro outer l b m is _ _ _ hname hm =>
    intro f hf
    rw [Item.findingsAll_givenUp, List.mem_append, List.mem_singleton] at hf
    rcases hf with hf | rfl
    · exact absurd (findings_bracedName hname f hf).1 hm
    · exact .reference rfl
  | closed _ _ _ _ ih =>
    intro f hf
    rw [Item.findingsAll_node, Item.findingsAll_append, List.mem_append] at hf
    rcases hf with hf | hf
    · exact (ih f hf).within (by simp [Item.takenAll, Item.taken, Item.takenAll_append, Lexer.item])
    · cases hf
  | @unclosed outer q l m is _ _ _ _ ih =>
    intro f hf
    rw [Item.findingsAll_givenUp, List.mem_append, List.mem_singleton] at hf
    rcases hf with hf | rfl
    · exact (ih f hf).within (by simp [Item.takenAll, Item.taken, Item.takenAll_append, Lexer.item])
    · exact .taken List.mem_cons_self rfl

end Derivation

namespace Parse

section
variable {text : List Char} (hsize : byteSize text ≤ maxOffset)

section
variable {items : List Item} {l : Lexer} (h : (Reading.lines text.length).leads (.ofText text) items l)
include h hsize

/-- Of the leaves that are not blank, each token that was taken has one, and so has the end of the text. -/
theorem exists_leaf {r : Tree × Span}
    (hr : r ∈ ((Item.takenAll items).map fun t => (.leaf t.2 t.1.ahead.text, t.1.ahead.span)) ++
      [(.leaf .eof [], l.ahead.span)]) : ∃ leaf ∈ (ofText text).root.leaves, leaf.span = r.2 := by
  rw [← regions_leaves h hsize] at hr
  obtain ⟨leaf, hleaf, heq⟩ := List.mem_map.mp (List.mem_filter.mp hr).1
  exact ⟨leaf, hleaf, congrArg Prod.snd heq⟩

theorem exists_leaf_of_placed {f : Finding} (hplaced : f.Placed .line items l)
    (hproblem : f.problem ≠ .unterminatedGlobalMacro) : ∃ leaf ∈ (ofText text).root.leaves, leaf.span = f.span := by
  cases hplaced with
  | reference h' => exact absurd h' hproblem
  | taken ht hspan =>
    rw [← hspan]
    exact exists_leaf hsize h (List.mem_append_left _ (List.mem_map_of_mem ht))
  | ahead _ _ hspan =>
    -- behind all lines the end of the text is ahead
    rw [← hspan]
    exact exists_leaf hsize h (List.mem_append_right _ (List.mem_singleton_self _))

end

include hsize

theorem within_text {p : Place} (hp : p ∈ (ofText text).root.elements) :
    p.span.start ≤ p.span.stop ∧ p.span.stop ≤ byteSize text ∧ (p.span.slice? text).isSome := by
  obtain ⟨items, l, h⟩ := Reading.exists_lines text
  have htext : (ofText text).root.text = text := (holds_of_lines h hsize).text_eq
  have hstop : (ofText text).root.stop = byteSize text := by
    rw [Place.stop, Tree.size_eq_byteSize, ← Place.text, htext]
    exact Nat.zero_add _
  have hslice := Place.slice_span rfl hp
  rw [htext] at hslice
  exact ⟨p.start_le_stop, hstop ▸ (Place.bounds_of_mem_elements hp).2, by rw [hslice, Option.isSome_some]⟩

/-- What is found of a macro reference without its end is as long as the reference. -/
theorem exists_macro_of_finding {f : Finding} (hf : f ∈ (ofText text).findings)
    (hproblem : f.problem = .unterminatedGlobalMacro) :
    ∃ n ∈ (ofText text).root.nodes, n.kind = .globalMacro ∧ n.span = f.span := by
  have hcategory : f.problem.category = .unterminated := by rw [hproblem]; rfl
  obtain ⟨r, hr, htells⟩ := (reported hsize).told f hf hcategory
  obtain ⟨n, hn, rfl⟩ := List.mem_map.mp (List.mem_filter.mp hr).1
  have hmacro : n.tree.isLeaf = false ∧ n.tree.kind = .globalMacro ∧ n.span = f.span := by
    rw [show n.tree = n.region.1 from rfl, show n.span = n.region.2 from rfl]
    generalize n.region = r at htells
    cases htells with
    | @construct q =>
      rcases q with _ | ⟨family, _⟩
      · cases hproblem
      · cases family <;> cases hproblem
    | reference => exact ⟨rfl, rfl, rfl⟩
    | comment | mata => cases hproblem
  exact ⟨n, Place.mem_nodes_iff.mpr ⟨hn, hmacro.1⟩, hmacro.2⟩

/-- Every diagnostic is at a leaf of the tree or, if it is about a macro reference whose braces are not closed, at
that reference, so that it lies within the text and between its characters. -/
theorem spans_of_diagnostics : ∀ d ∈ (ofText text).diagnostics,
    (d.span.start ≤ d.span.stop ∧ d.span.stop ≤ byteSize text ∧ (d.span.slice? text).isSome) ∧
    (d.message = "unterminated `$\x7b`" →
      ∃ n ∈ (ofText text).root.nodes, n.kind = .globalMacro ∧ n.span = d.span) ∧
    (d.message ≠ "unterminated `$\x7b`" → ∃ leaf ∈ (ofText text).root.leaves, leaf.span = d.span) := by
  intro d hd
  obtain ⟨f, hf, rfl⟩ := List.mem_map.mp hd
  have hmacro : f.problem = .unterminatedGlobalMacro →
      ∃ n ∈ (ofText text).root.nodes, n.kind = .globalMacro ∧ n.span = f.span := exists_macro_of_finding hsize hf
  have hleaf : f.problem ≠ .unterminatedGlobalMacro → ∃ leaf ∈ (ofText text).root.leaves, leaf.span = f.span := by
    obtain ⟨items, l, h⟩ := Reading.exists_lines text
    rw [ofText_eq h hsize] at hf
    exact exists_leaf_of_placed hsize h ((Reading.derives_lines _ trivial h).placed f hf)
  have hmessage : f.diagnostic.message = "unterminated `$\x7b`" ↔ f.problem = .unterminatedGlobalMacro :=
    ⟨fun h => Problem.message_injective h, fun h => congrArg Problem.message h⟩
  refine ⟨?_, fun h => hmacro (hmessage.mp h), fun h => hleaf fun h' => h (hmessage.mpr h')⟩
  have hplace : ∃ p ∈ (ofText text).root.elements, p.span = f.span := by
    by_cases hproblem : f.problem = .unterminatedGlobalMacro
    · obtain ⟨n, hn, -, hspan⟩ := hmacro hproblem
      exact ⟨n, (Place.mem_nodes_iff.mp hn).1, hspan⟩
    · obtain ⟨leaf, hleaf, hspan⟩ := hleaf hproblem
      exact ⟨leaf, (Place.mem_leaves_iff.mp hleaf).1, hspan⟩
  obtain ⟨p, hp, hspan⟩ := hplace
  exact (show f.diagnostic.span = p.span from hspan.symm) ▸ within_text hsize hp

end

theorem spans_of_diagnostics_mixed :
    let text := "local\n$\x7bü \"é".toList
    (byteSize text ≤ maxOffset ∧ (ofText text).diagnostics.map (·.span) = [⟨5, 6⟩, ⟨6, 7⟩, ⟨6, 8⟩, ⟨11, 12⟩]) ∧
    ∀ d ∈ (ofText text).diagnostics,
      (d.span.start ≤ d.span.stop ∧ d.span.stop ≤ byteSize text ∧ (d.span.slice? text).isSome) ∧
      (d.message = "unterminated `$\x7b`" →
        ∃ n ∈ (ofText text).root.nodes, n.kind = .globalMacro ∧ n.span = d.span) ∧
      (d.message ≠ "unterminated `$\x7b`" → ∃ leaf ∈ (ofText text).root.leaves, leaf.span = d.span) := by
  intro text
  have hsize : byteSize text ≤ maxOffset := by decide
  have hspans : (ofText text).diagnostics.map (·.span) = [⟨5, 6⟩, ⟨6, 7⟩, ⟨6, 8⟩, ⟨11, 12⟩] := by decide +kernel
  exact ⟨⟨hsize, hspans⟩, spans_of_diagnostics hsize⟩

end Parse

end Dofile
