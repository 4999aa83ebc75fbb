import Dofile.Parse
import Dofile.Proofs.Count

/-!
# Whole texts

Every text that is not too large for its offsets is parsed: no rule is applied where
it does not belong, every node that starts is closed, and the log can be replayed.
The tree holds the text to the last character, with the end of the text as its
last leaf.
-/

namespace Dofile

namespace Script

mutual

theorem isSettled_events (outer? : Option Nat) : ∀ s : Script, ∀ e ∈ s.events outer?, e.isSettled = true
  | .token _, e, h => by
    simp only [events, List.mem_singleton] at h
    rw [h]
    rfl
  | .node _ children, e, h => by
    simp only [events, List.mem_cons, List.mem_append, List.not_mem_nil, or_false] at h
    rcases h with rfl | h | rfl
    · rfl
    · exact isSettled_eventsAll children e h
    · rfl
  | .enclosing _ inner between after, e, h => by
    simp only [events, List.mem_cons, List.mem_append, List.not_mem_nil, or_false] at h
    rcases h with (h | h) | rfl | h | rfl
    · exact isSettled_events _ inner e h
    · exact isSettled_eventsAll between e h
    · rfl
    · exact isSettled_eventsAll after e h
    · rfl

theorem isSettled_eventsAll : ∀ ss : List Script, ∀ e ∈ eventsAll ss, e.isSettled = true
  | [], e, h => by simp [eventsAll] at h
  | s :: ss, e, h => by
    rw [eventsAll, List.mem_append] at h
    exact h.elim (isSettled_events none s e) (isSettled_eventsAll ss e)

end

mutual

theorem mem_tokens_of_mem_events (outer? : Option Nat) (t : Token) : ∀ s : Script,
    .token t ∈ s.events outer? → t ∈ s.tokens
  | .token _, h => by simpa [events, tokens] using h
  | .node _ children, h => by
    simp only [events, List.mem_cons, List.mem_append, reduceCtorEq, List.not_mem_nil, or_false,
      false_or] at h
    exact mem_tokensAll_of_mem_eventsAll t children h
  | .enclosing _ inner between after, h => by
    simp only [events, List.mem_cons, List.mem_append, reduceCtorEq, List.not_mem_nil, or_false,
      false_or] at h
    simp only [tokens, List.mem_append]
    exact h.imp (Or.imp (mem_tokens_of_mem_events _ t inner) (mem_tokensAll_of_mem_eventsAll t between))
      (mem_tokensAll_of_mem_eventsAll t after)

theorem mem_tokensAll_of_mem_eventsAll (t : Token) : ∀ ss : List Script,
    .token t ∈ eventsAll ss → t ∈ tokensAll ss
  | [], h => by simp [eventsAll] at h
  | s :: ss, h => by
    rw [eventsAll, List.mem_append] at h
    rw [tokensAll, List.mem_append]
    exact h.imp (mem_tokens_of_mem_events none t s) (mem_tokensAll_of_mem_eventsAll t ss)

end

end Script

def Lexer.tokenAs (l : Lexer) (kind : Kind) : Token := { l.ahead with kind }

mutual

theorem Item.tokens_scripts : ∀ i : Item,
    Script.tokensAll i.scripts = i.taken.map fun t => t.1.tokenAs t.2
  | .token l kind => by simp [scripts, taken, Script.tokensAll, Script.tokens, Lexer.tokenAs]
  | .found _ => by simp [scripts, taken, Script.tokensAll]
  | .node _ items => by
    simpa [scripts, taken, Script.tokensAll, Script.tokens] using tokens_scriptsAll items
  | .enclosed _ items => by
    simpa [scripts, taken, Script.tokensAll, Script.tokens] using tokens_scriptsAll items

theorem Item.tokens_scriptsAll : ∀ items : List Item,
    Script.tokensAll (scriptsAll items) = (takenAll items).map fun t => t.1.tokenAs t.2
  | [] => by simp [scriptsAll, takenAll, Script.tokensAll]
  | i :: is => by
    rw [scriptsAll, takenAll, Script.tokensAll_append, List.map_append, tokens_scripts i,
      tokens_scriptsAll is]

end

namespace Lexer

theorem text_of_eof {l : Lexer} (h : l.kind = .eof) : l.ahead.text = [] := l.text_eq_nil_iff.mpr h

/-- At the end of the text only blanks are left. -/
theorem fullText_of_eof {l : Lexer} (h : l.kind = .eof) : l.ahead.fullText = l.rest := by
  have hbody := l.leading_append_body
  rw [l.kind_eq_eof_iff.mp h, List.append_nil] at hbody
  rw [Token.fullText, text_of_eof h, List.append_nil]
  exact hbody

end Lexer

/-! ## The parse of a text -/

/-- No two problems are told of in the same words. -/
theorem Problem.message_injective : Function.Injective message := by
  intro p q h
  cases p <;> cases q <;> first | rfl | simp [message] at h

namespace Parse

def fileItems (items : List Item) (l : Lexer) : List Item := items ++ [l.item]

section
variable {text : List Char} {items : List Item} {l : Lexer}
  (h : (Reading.lines text.length).leads (.ofText text) items l)
include h

theorem kind_of_lines : l.kind = .eof := Reading.stops_of_many h

theorem account_of_lines : Account (.ofText text) items l := (Reading.lines text.length).account h

theorem text_fileItems : Script.textAll (Item.scriptsAll (fileItems items l)) = text := by
  have htext := (account_of_lines h).text
  rw [fileItems, Item.scriptsAll_append, Script.textAll_append]
  simp only [Lexer.item, Item.scriptsAll, Item.scripts, Script.textAll, Script.text, List.append_nil]
  show _ ++ l.ahead.fullText = text
  rw [Lexer.fullText_of_eof (kind_of_lines h), htext]
  rfl

theorem sound_fileItems : (Script.node .sourceFile (Item.scriptsAll (fileItems items l))).Sound := by
  refine ⟨by decide, ?_⟩
  rw [fileItems, Item.scriptsAll_append, Script.soundAll_append]
  exact ⟨(account_of_lines h).sound, l.isNode_kind, trivial⟩

theorem log_of_lines : (Grammar.sourceFile (.ofText text)).log.events.toList =
    (Script.node .sourceFile (Item.scriptsAll (fileItems items l))).events none := by
  rw [Reading.sourceFile_emit h]
  simp [Run.emit, Run.ofText, Log.append, Log.empty, Item.eventsAll, Item.scriptsAll, Item.scripts,
    Script.eventsAll, fileItems]

/-- A log has few events for each character of its text. -/
theorem size_events_le : (Grammar.sourceFile (.ofText text)).log.events.size ≤ eventsPerToken * text.length + 3 := by
  have hcount := Reading.hasRoom_lines text.length h
  have htaken : (Item.takenAll items).length + l.rest.length ≤ text.length := (account_of_lines h).length_takenAll
  have hle : eventsPerToken * (Item.takenAll items).length ≤ eventsPerToken * text.length :=
    Nat.mul_le_mul_left _ (by omega)
  have hlength : (Script.eventsAll (Item.scriptsAll (fileItems items l))).length = Item.eventCount items + 1 :=
    Item.eventCount_append items [l.item]
  rw [← Array.length_toList, log_of_lines h, Script.events, List.length_cons, List.length_append, hlength]
  simp only [List.length_singleton]
  omega

/-- The parse of a text is the tree of its items and their findings. -/
theorem ofText?_eq (hsize : byteSize text ≤ maxOffset) : ofText? text =
    .ok ⟨.node .sourceFile (Script.forest (Item.scriptsAll (fileItems items l))), Item.findingsAll items⟩ := by
  have hlog := log_of_lines h
  have hbreach : (Grammar.sourceFile (.ofText text)).breach? = none := by
    rw [Reading.sourceFile_emit h]
    rfl
  have hsettled : (Grammar.sourceFile (.ofText text)).log.isSettled = true := by
    rw [Log.isSettled, ← Array.all_toList, hlog, List.all_eq_true]
    exact Script.isSettled_events none _
  have hreplay := Log.replay_node hlog (sound_fileItems h) (text_fileItems h) hsize
  have hfindings : (Grammar.sourceFile (.ofText text)).findings.toList = Item.findingsAll items := by
    rw [Reading.sourceFile_emit h]
    simp [Run.emit, Run.ofText, Item.findingsAll, Item.findings, Item.findingsAll_append, Lexer.item]
  simp only [ofText?, hbreach, hsettled, if_true, hreplay, hfindings]

theorem ofText_eq (hsize : byteSize text ≤ maxOffset) : ofText text =
    ⟨.node .sourceFile (Script.forest (Item.scriptsAll (fileItems items l))), Item.findingsAll items⟩ := by
  rw [ofText, ofText?_eq h hsize]

theorem tree_of_lines (hsize : byteSize text ≤ maxOffset) : (ofText text).root.tree =
    .node .sourceFile (Script.forest (Item.scriptsAll (fileItems items l))) := by
  rw [root, Place.ofRoot, ofText_eq h hsize]

/-- What is said of some problem are the findings of it, in their order. -/
theorem spans_of_problem (hsize : byteSize text ≤ maxOffset) (problem : Problem) :
    ((ofText text).diagnostics.filter (·.message == problem.message)).map Diagnostic.span =
      ((Item.findingsAll items).filter (·.problem == problem)).map Finding.span := by
  have hfindings : (ofText text).findings = Item.findingsAll items := by rw [ofText_eq h hsize]
  have hmessage : ∀ f : Finding, (f.diagnostic.message == problem.message) = (f.problem == problem) := fun f => by
    rw [Bool.eq_iff_iff, beq_iff_eq, beq_iff_eq]
    exact Problem.message_injective.eq_iff
  rw [diagnostics, hfindings, List.filter_map, List.map_map]
  exact congrArg (List.map _) (List.filter_congr fun f _ => hmessage f)

theorem leaves_file :
    (Tree.node .sourceFile (Script.forest (Item.scriptsAll (fileItems items l)))).leaves =
      ((Item.takenAll items).flatMap fun t => Script.leavesOf (t.1.tokenAs t.2)) ++
        Script.blankLeaf l.ahead.leading ++ [.leaf .eof []] := by
  rw [Tree.leaves, Script.leaves_forest, fileItems, Item.scriptsAll_append, Script.tokensAll_append,
    List.flatMap_append, Item.tokens_scriptsAll, List.flatMap_map, List.append_assoc]
  have hlast : Script.leavesOf (l.tokenAs l.kind) = Script.blankLeaf l.ahead.leading ++ [.leaf .eof []] := by
    simp only [Script.leavesOf, Lexer.tokenAs, Lexer.text_of_eof (kind_of_lines h), kind_of_lines h]
  rw [← hlast]
  simp [Lexer.item, Item.scriptsAll, Item.scripts, Script.tokensAll, Script.tokens, Lexer.tokenAs]

end

structure Holds (p : Parse) (text : List Char) : Prop where
  text_eq : p.text = text
  leaves_eq : p.root.leaves.flatMap Place.text = text
  isNode : p.root.isLeaf = false
  kind : p.root.kind = .sourceFile
  last : ∃ before last, p.root.leaves = before ++ [last] ∧ last.kind = .eof ∧ last.text = [] ∧
    ∀ leaf ∈ before, leaf.kind ≠ .eof

theorem kind_blankLeaf {blanks : List Char} {t : Tree} (h : t ∈ Script.blankLeaf blanks) :
    t.kind = .whitespace := by
  cases blanks with
  | nil => cases h
  | cons c blanks =>
    rw [Script.blankLeaf, List.mem_singleton] at h
    rw [h]
    rfl

/-- No leaf of a token that was taken is an end of the text. -/
theorem kind_ne_eof_of_mem_leavesOf {l : Lexer} {kind : Kind} {t : Tree} (h : l.TakenAs kind)
    (ht : t ∈ Script.leavesOf (l.tokenAs kind)) : t.kind ≠ .eof := by
  rw [Script.leavesOf, List.mem_append, List.mem_singleton] at ht
  rcases ht with ht | rfl
  · rw [kind_blankLeaf ht]
    decide
  · exact h.ne_eof

theorem holds_of_lines {text : List Char} {items : List Item} {l : Lexer}
    (h : (Reading.lines text.length).leads (.ofText text) items l) (hsize : byteSize text ≤ maxOffset) :
    (ofText text).Holds text := by
  have htree : (ofText text).tree =
      .node .sourceFile (Script.forest (Item.scriptsAll (fileItems items l))) := by rw [ofText_eq h hsize]
  have htext : (ofText text).tree.text = text := by
    rw [htree, Tree.text, Script.textAll_forest, text_fileItems h]
  have hmap : (ofText text).root.leaves.map Place.tree = (ofText text).tree.leaves := Place.map_tree_leaves _
  refine ⟨htext, ?_, ?_, ?_, ?_⟩
  · have hflat := Tree.flatMap_text_leaves (ofText text).tree
    rw [← hmap, List.flatMap_map, htext] at hflat
    exact hflat
  · rw [root, Place.isLeaf, Place.ofRoot, htree]
    rfl
  · rw [root, Place.kind, Place.ofRoot, htree]
    rfl
  · rw [htree, leaves_file h] at hmap
    obtain ⟨before, last, hleaves, hbefore, hlast⟩ := List.map_eq_append_iff.mp hmap
    obtain ⟨leaf, rfl, hleaf⟩ := List.map_eq_singleton_iff.mp hlast
    refine ⟨before, leaf, hleaves, ?_, ?_, fun p hp => ?_⟩
    · rw [Place.kind, hleaf]
      rfl
    · rw [Place.text, hleaf]
      rfl
    · have hmem : p.tree ∈ before.map Place.tree := List.mem_map_of_mem hp
      rw [hbefore, List.mem_append, List.mem_flatMap] at hmem
      rcases hmem with ⟨t, ht, hmem⟩ | hmem
      · exact kind_ne_eof_of_mem_leavesOf ((account_of_lines h).stands (Lexer.stands_ofText text) |>.2 t ht).2 hmem
      · rw [Place.kind, kind_blankLeaf hmem]
        decide

def CutsOut (text : List Char) (t : Token) : Prop :=
  (Span.mk t.offset t.start).slice? text = some t.leading ∧ t.span.slice? text = some t.text

/-- Every token that was logged stands in the text. -/
theorem cutsOut_of_mem_log {text : List Char} {items : List Item} {l : Lexer}
    (h : (Reading.lines text.length).leads (.ofText text) items l) {t : Token}
    (ht : .token t ∈ (Grammar.sourceFile (.ofText text)).log.events.toList) :
    CutsOut text t := by
  obtain ⟨hl, htaken⟩ := (account_of_lines h).stands (Lexer.stands_ofText text)
  rw [log_of_lines h] at ht
  have hmem := Script.mem_tokens_of_mem_events none t _ ht
  rw [Script.tokens, fileItems, Item.tokens_scriptsAll, Item.takenAll_append, List.map_append,
    List.mem_append] at hmem
  rcases hmem with hmem | hmem
  · obtain ⟨u, hu, rfl⟩ := List.mem_map.mp hmem
    exact ⟨(htaken u hu).1.slice_leading, (htaken u hu).1.slice_span⟩
  · simp only [Lexer.item, Item.takenAll, Item.taken, List.append_nil, List.map_cons, List.map_nil,
      List.mem_singleton] at hmem
    rw [hmem]
    exact ⟨hl.slice_leading, hl.slice_span⟩

/-- Every text of at most 400000000 bytes is parsed without a failure, the positions of its
events fit in 32 bits, and nothing of it is lost. -/
theorem ofText_holds (text : List Char) (hsize : byteSize text ≤ 400000000) :
    ofText? text = .ok (ofText text) ∧
      (Grammar.sourceFile (.ofText text)).log.events.size ≤ maxOffset ∧ (ofText text).Holds text ∧
      ∀ t, .token t ∈ (Grammar.sourceFile (.ofText text)).log.events.toList → CutsOut text t := by
  have hmax : byteSize text ≤ maxOffset := Nat.le_trans hsize (by decide)
  obtain ⟨items, l, h⟩ := Reading.exists_lines text
  refine ⟨?_, ?_, holds_of_lines h hmax, fun t => cutsOut_of_mem_log h⟩
  · rw [ofText?_eq h hmax, ofText_eq h hmax]
  · have hevents := size_events_le h
    have hlength := length_le_byteSize text
    unfold eventsPerToken at hevents
    unfold maxOffset
    omega

theorem ofText_holds_unfinished :
    let text := "program p\n  display `x\n".toList
    byteSize text ≤ 400000000 ∧ ofText? text = .ok (ofText text) ∧
      (Grammar.sourceFile (.ofText text)).log.events.size ≤ maxOffset ∧ (ofText text).Holds text ∧
      ∀ t, .token t ∈ (Grammar.sourceFile (.ofText text)).log.events.toList → CutsOut text t := by
  have hsize : byteSize "program p\n  display `x\n".toList ≤ 400000000 := by decide
  exact ⟨hsize, ofText_holds _ hsize⟩

end Parse

end Dofile
