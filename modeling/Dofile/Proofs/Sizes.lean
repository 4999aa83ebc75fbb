import Dofile.Proofs.Order

/-!
# The sizes of logs and trees

A log holds two events for each node of its tree and one for each token, so the nine events that come to a
token at most leave four nodes to it. Each leaf but the last holds text. The positions of events and the
distances of their links are positions in the log, and so they fit in 32 bits where the log does.
-/

namespace Dofile

namespace Tree

/-- Trees that hold text are no more than the bytes of it. -/
theorem length_le_byteSize {ts : List Tree} (h : ∀ t ∈ ts, t.text ≠ []) :
    ts.length ≤ byteSize (ts.flatMap text) := by
  induction ts with
  | nil => exact Nat.le_refl 0
  | cons t ts ih =>
    have htext := List.length_pos_iff.mpr (h t (by simp))
    have hsize := Dofile.length_le_byteSize t.text
    have htail := ih fun u hu => h u (List.mem_cons_of_mem t hu)
    rw [List.flatMap_cons, byteSize_append, List.length_cons]
    omega

end Tree

namespace Script

theorem nodeCountAll_blankLeaf (blanks : List Char) : Tree.nodeCountAll (blankLeaf blanks) = 0 := by
  cases blanks <;> rfl

theorem nodeCountAll_waiting (ss : List Script) : Tree.nodeCountAll (waiting ss) = Tree.nodeCountAll (forest ss) := by
  rw [forest_eq, Tree.nodeCountAll_append, nodeCountAll_blankLeaf, Nat.zero_add]

mutual

/-- Each node of a script has its start and its finish in the log. -/
theorem length_events_eq (outer? : Option Nat) : ∀ s : Script,
    (s.events outer?).length = 2 * s.tree.nodeCount + s.tokens.length
  | .token _ => rfl
  | .node _ children => by
    have hall := length_eventsAll_eq children
    simp only [events, tree, tokens, Tree.nodeCount, nodeCountAll_waiting, List.length_cons, List.length_append,
      List.length_nil]
    omega
  | .enclosing _ inner between after => by
    have hinner := length_events_eq (some (inner.reach + (eventsAll between).length)) inner
    have hbetween := length_eventsAll_eq between
    have hafter := length_eventsAll_eq after
    simp only [events, tree, tokens, Tree.nodeCount, Tree.nodeCountAll, Tree.nodeCountAll_append, List.length_cons,
      List.length_append, List.length_nil]
    omega

theorem length_eventsAll_eq : ∀ ss : List Script,
    (eventsAll ss).length = 2 * Tree.nodeCountAll (forest ss) + (tokensAll ss).length
  | [] => rfl
  | s :: ss => by
    have hfirst := length_events_eq none s
    have hall := length_eventsAll_eq ss
    simp only [eventsAll, forest, tokensAll, Tree.nodeCountAll, Tree.nodeCountAll_append, nodeCountAll_blankLeaf,
      List.length_append]
    omega

end

end Script

/-! ## Links -/

def Linked (events : List Event) : Prop :=
  ∀ (i : Nat) kind? distance, events[i]? = some (.start kind? (some distance)) →
    ∃ outerKind? outer?, events[i + distance]? = some (.start outerKind? outer?)

section
variable {es fs : List Event}

theorem linked_nil : Linked [] := by
  intro i kind? distance h
  rw [List.getElem?_nil] at h
  cases h

theorem Linked.append (h : Linked es) (h' : Linked fs) : Linked (es ++ fs) := by
  intro i kind? distance hi
  by_cases hlt : i < es.length
  · rw [List.getElem?_append_left hlt] at hi
    obtain ⟨outerKind?, outer?, htarget⟩ := h i kind? distance hi
    have hin := (List.getElem?_eq_some_iff.mp htarget).1
    exact ⟨outerKind?, outer?, by rw [List.getElem?_append_left hin, htarget]⟩
  · have hge : es.length ≤ i := Nat.le_of_not_lt hlt
    rw [List.getElem?_append_right hge] at hi
    obtain ⟨outerKind?, outer?, htarget⟩ := h' (i - es.length) kind? distance hi
    refine ⟨outerKind?, outer?, ?_⟩
    rw [List.getElem?_append_right (by omega), ← htarget]
    congr 1
    omega

theorem Linked.cons {e : Event} (h : Linked es) (he : ∀ kind? distance, e = .start kind? (some distance) →
    ∃ outerKind? outer?, (e :: es)[distance]? = some (.start outerKind? outer?)) : Linked (e :: es) := by
  intro i kind? distance hi
  cases i with
  | zero =>
    rw [Nat.zero_add]
    exact he kind? distance (Option.some.inj hi)
  | succ i =>
    obtain ⟨outerKind?, outer?, htarget⟩ := h i kind? distance hi
    refine ⟨outerKind?, outer?, ?_⟩
    rw [Nat.succ_add]
    exact htarget

theorem linked_finish : Linked [.finish] := linked_nil.cons nofun

theorem Linked.node (h : Linked es) (kind : Kind) : Linked (.start (some kind) none :: (es ++ [.finish])) :=
  (h.append linked_finish).cons fun _ _ he => by cases he

theorem Linked.enclosed (h : Linked es) (kind outer : Kind) :
    Linked (.start (some kind) (some (es.length + 2)) :: (es ++ [.finish, .start (some outer) none, .finish])) := by
  have hbehind : Linked [.finish, .start (some outer) none, .finish] :=
    (linked_finish.cons fun _ _ he => by cases he).cons nofun
  refine (h.append hbehind).cons fun kind? distance he => ?_
  cases he
  exact ⟨some outer, none, by simp⟩

end

mutual

theorem Item.linked : ∀ i : Item, Linked (Script.eventsAll i.scripts)
  | .token l kind => linked_nil.cons nofun
  | .found _ => linked_nil
  | .node kind items => by
    simpa [scripts, Script.eventsAll, Script.events] using (linkedAll items).node kind
  | .enclosed kind items => by
    simpa [scripts, Script.eventsAll, Script.events, Script.reach] using (linkedAll items).enclosed kind .error

theorem Item.linkedAll : ∀ items : List Item, Linked (Script.eventsAll (scriptsAll items))
  | [] => linked_nil
  | i :: is => by
    rw [scriptsAll, Script.eventsAll_append]
    exact (linked i).append (linkedAll is)

end

/-! ## Finished trees -/

theorem exists_of_bind {ε α β : Type} {x : Except ε α} {f : α → Except ε β} {b : β} (h : x >>= f = .ok b) :
    ∃ a, x = .ok a ∧ f a = .ok b := by
  cases x with
  | error e => cases h
  | ok a => exact ⟨a, rfl, h⟩

def Builder.Within (size : Nat) (b : Builder) : Prop := b.size = size ∧ b.offset ≤ maxOffset

namespace Builder

variable {size : Nat} {b b' : Builder} (h : b.Within size)
include h

theorem Within.enter {kind : Kind} (hb : b.enter kind = .ok b') : b'.Within size := by
  unfold Builder.enter at hb
  split at hb; · cases hb
  split at hb; · cases hb
  cases hb
  exact h

theorem Within.foldlM_enter {kinds : List Kind} (hb : kinds.foldlM Builder.enter b = .ok b') : b'.Within size := by
  induction kinds generalizing b with
  | nil =>
    cases hb
    exact h
  | cons kind kinds ih =>
    rw [List.foldlM_cons] at hb
    obtain ⟨c, hc, hb⟩ := exists_of_bind hb
    exact ih (h.enter hc) hb

theorem Within.leave (hb : b.leave = .ok b') : b'.Within size := by
  unfold Builder.leave at hb
  split at hb
  · cases hb
  · cases hb; exact h
  · cases hb; exact h

theorem Within.leaf {kind : Kind} {length : Nat} (hb : b.leaf kind length = .ok b') : b'.Within size := by
  unfold Builder.leaf at hb
  split at hb; · cases hb
  split at hb; · cases hb
  split at hb; · cases hb
  rename_i hfits
  split at hb; · cases hb
  cases hb
  exact ⟨h.1, Nat.le_of_not_lt hfits⟩

theorem Within.blanks {length : Nat} (hb : b.blanks length = .ok b') : b'.Within size := by
  unfold Builder.blanks at hb
  split at hb
  · cases hb; exact h
  · exact h.leaf hb

theorem Within.size_le {tree : Tree} (hb : b.finish = .ok tree) : size ≤ maxOffset := by
  unfold Builder.finish at hb
  split at hb; · cases hb
  split at hb; · cases hb
  split at hb
  · rename_i hall
    rw [← h.1, ← hall]
    exact h.2
  · cases hb

end Builder

theorem Fault.ofBuilder_eq_ok {α : Type} {x : Except Builder.Error α} {a : α} (h : ofBuilder x = .ok a) :
    x = .ok a := by
  cases x with
  | error e => cases h
  | ok b =>
    cases h
    rfl

namespace Replay

variable {size : Nat} {r r' : Replay} (h : r.builder.Within size)
include h

theorem within_flush (hr : r.flush = .ok r') : r'.builder.Within size := by
  obtain ⟨b, hb, hr⟩ := exists_of_bind hr
  cases hr
  exact h.foldlM_enter (Fault.ofBuilder_eq_ok hb)

theorem within_start {kinds : List Kind} (hr : r.start kinds = .ok r') : r'.builder.Within size := by
  unfold start at hr
  split at hr
  · obtain ⟨b, hb, hr⟩ := exists_of_bind hr
    cases hr
    exact h.enter (Fault.ofBuilder_eq_ok hb)
  · cases hr
    exact h

theorem within_finish (hr : r.finish = .ok r') : r'.builder.Within size := by
  obtain ⟨s, hs, hr⟩ := exists_of_bind hr
  obtain ⟨b, hb, hr⟩ := exists_of_bind hr
  cases hr
  exact (within_flush h hs).leave (Fault.ofBuilder_eq_ok hb)

theorem within_token {t : Token} (hr : r.token t = .ok r') : r'.builder.Within size := by
  obtain ⟨b, hb, hr⟩ := exists_of_bind hr
  obtain ⟨s, hs, hr⟩ := exists_of_bind hr
  obtain ⟨c, hc, hr⟩ := exists_of_bind hr
  cases hr
  have hblanks := h.blanks (Fault.ofBuilder_eq_ok hb)
  exact (within_flush (r := { r with builder := b }) hblanks hs).leaf (Fault.ofBuilder_eq_ok hc)

/-- A replay stays within the offsets that a tree may reach, whatever the log. -/
theorem within_run {fuel : Nat} {events : List Event} (hr : run fuel events r = .ok r') :
    r'.builder.Within size := by
  fun_induction run fuel events r with
  | case1 => cases hr; exact h
  | case2 => cases hr; exact h
  | case3 fuel outer? events r ih => exact ih h hr
  | case4 fuel kind outer? events r ih =>
    obtain ⟨⟨kinds, events⟩, -, hr⟩ := exists_of_bind hr
    obtain ⟨s, hs, hr⟩ := exists_of_bind hr
    exact ih events s (within_start h hs) hr
  | case5 fuel t events r ih =>
    obtain ⟨s, hs, hr⟩ := exists_of_bind hr
    exact ih s (within_token h hs) hr
  | case6 fuel events r ih =>
    obtain ⟨s, hs, hr⟩ := exists_of_bind hr
    exact ih s (within_finish h hs) hr

end Replay

/-- Only a text that offsets reach has a tree. -/
theorem Log.size_le_of_replay {log : Log} {text : List Char} {tree : Tree} (h : log.replay text = .ok tree) :
    byteSize text ≤ maxOffset := by
  obtain ⟨r, hr, hfinish⟩ := exists_of_bind h
  have hstart : (Replay.ofText text).builder.Within (byteSize text) := ⟨rfl, Nat.zero_le _⟩
  exact (Replay.within_run hstart hr).size_le (Fault.ofBuilder_eq_ok hfinish)

namespace Parse

variable {text : List Char}

theorem size_le_of_ofText? {p : Parse} (h : ofText? text = .ok p) : byteSize text ≤ maxOffset := by
  simp only [ofText?] at h
  split at h
  · cases h
  · split at h
    · split at h
      · rename_i tree hreplay
        exact Log.size_le_of_replay hreplay
      · cases h
    · cases h

section
variable {items : List Item} {l : Lexer} (h : (Reading.lines text.length).leads (.ofText text) items l)
include h

theorem linked_of_lines : Linked (Grammar.sourceFile (.ofText text)).log.events.toList := by
  rw [log_of_lines h]
  exact (Item.linkedAll (fileItems items l)).node .sourceFile

theorem nodeCount_le : (Tree.node .sourceFile (Script.forest (Item.scriptsAll (fileItems items l)))).nodeCount ≤
    4 * text.length + 1 := by
  have hroom : Item.eventCount items + 0 ≤ eventsPerToken * (Item.takenAll items).length :=
    Reading.hasRoom_lines text.length h
  have htaken : (Item.takenAll items).length + l.rest.length ≤ text.length := (account_of_lines h).length_takenAll
  have hcount : Item.eventCount items =
      2 * Tree.nodeCountAll (Script.forest (Item.scriptsAll items)) + (Item.takenAll items).length := by
    rw [Item.eventCount, Item.eventsAll, Script.length_eventsAll_eq, Item.tokens_scriptsAll, List.length_map]
  have hlast : Tree.nodeCountAll (Script.forest (Item.scriptsAll [l.item])) = 0 := by
    rw [Script.forest_eq, Tree.nodeCountAll_append, Script.nodeCountAll_blankLeaf]
    rfl
  rw [Tree.nodeCount, fileItems, Item.scriptsAll_append, Script.forest_append, Tree.nodeCountAll_append, hlast]
  unfold eventsPerToken at hroom
  omega

/-- Each leaf but the end of the text holds at least one byte. -/
theorem leafCount_le : (Tree.node .sourceFile (Script.forest (Item.scriptsAll (fileItems items l)))).leafCount ≤
    byteSize text + 1 := by
  have hleaves := leaves_file h
  have htext := Tree.flatMap_text_leaves (.node .sourceFile (Script.forest (Item.scriptsAll (fileItems items l))))
  rw [Tree.text, Script.textAll_forest, text_fileItems h, hleaves, List.flatMap_append] at htext
  rw [← Tree.length_leaves, hleaves, List.length_append, List.length_singleton]
  refine Nat.add_le_add_right (Nat.le_trans (Tree.length_le_byteSize fun t ht => ?_) ?_) 1
  · rw [List.mem_append, List.mem_flatMap] at ht
    rcases ht with ⟨u, hu, ht⟩ | ht
    · have htaken := ((account_of_lines h).stands (Lexer.stands_ofText text)).2 u hu
      exact Script.text_ne_nil_of_mem_leavesOf htaken.2.1 ht
    · exact Script.text_ne_nil_of_mem_blankLeaf ht
  · rw [← htext, byteSize_append]
    exact Nat.le_add_right ..

end

/-- The rules log at most nine events for each byte and three more. Up to 477218588 bytes every position of an
event and every distance of a link is a number of 32 bits, and the links lead to starts. A tree has at most four
nodes and one leaf for each byte and one of each more. -/
theorem size_bounds (text : List Char) :
    let n := byteSize text
    let events := (Grammar.sourceFile (.ofText text)).log.events
    events.size ≤ 9 * n + 3 ∧
      (n ≤ 477218588 → ofText? text = .ok (ofText text) ∧ ∀ (i : Nat) event, events[i]? = some event →
        (UInt32.ofNat i).toNat = i ∧ ∀ kind? distance, event = .start kind? (some distance) →
          (UInt32.ofNat distance).toNat = distance ∧
            ∃ outerKind? outer?, events[i + distance]? = some (.start outerKind? outer?)) ∧
      ∀ p, ofText? text = .ok p → p.tree.nodeCount ≤ 4 * n + 1 ∧ p.tree.leafCount ≤ n + 1 := by
  intro n events
  obtain ⟨items, l, h⟩ := Reading.exists_lines text
  have hlength : text.length ≤ n := length_le_byteSize text
  have hsize : events.size ≤ 9 * n + 3 :=
    Nat.le_trans (size_events_le h) (Nat.add_le_add_right (Nat.mul_le_mul_left 9 hlength) 3)
  refine ⟨hsize, fun hn => ⟨?_, fun i event hi => ?_⟩, fun p hp => ?_⟩
  · have hmax : n ≤ maxOffset := Nat.le_trans hn (by decide)
    rw [ofText?_eq h hmax, ofText_eq h hmax]
  · have hfits : ∀ k, k ≤ events.size → (UInt32.ofNat k).toNat = k := fun k hk =>
      UInt32.toNat_ofNat_of_lt' (by simp only [UInt32.size]; omega)
    have hlt := (Array.getElem?_eq_some_iff.mp hi).1
    refine ⟨hfits i (Nat.le_of_lt hlt), ?_⟩
    rintro kind? distance rfl
    obtain ⟨outerKind?, outer?, htarget⟩ := linked_of_lines h i kind? distance (by rwa [Array.getElem?_toList])
    rw [Array.getElem?_toList] at htarget
    have hin : i + distance < events.size := (Array.getElem?_eq_some_iff.mp htarget).1
    exact ⟨hfits distance (by omega), outerKind?, outer?, htarget⟩
  · have hmax := size_le_of_ofText? hp
    rw [ofText?_eq h hmax] at hp
    cases hp
    exact ⟨Nat.le_trans (nodeCount_le h) (by omega), leafCount_le h⟩

/-- No bound can be less: a quotation mark alone reaches all of them. -/
example : (Grammar.sourceFile (.ofText ['"'])).log.events.size = 12 ∧ (ofText ['"']).tree.nodeCount = 5 ∧
    (ofText ['"']).tree.leafCount = 2 := by
  decide +kernel

end Parse

end Dofile
