import Dofile.Proofs.Checks
import Dofile.Proofs.Spelling

/-!
# What a writer refuses

A writer takes the calls that a builder takes, as long as there are numbers for the elements. So
it takes exactly the calls that spell such a tree, and the store that it makes is the store of the
tree.
-/

namespace Dofile

/-- Whether there are numbers for all elements of a tree, and for the places behind its leaves. -/
structure Tree.Indexable (tree : Tree) : Prop where
  nodes : tree.nodeCount ≤ maxOffset + 1
  leaves : tree.leafCount ≤ maxOffset
  children : ∀ p ∈ (Place.ofRoot tree).elements, p.children.length ≤ maxOffset + 1

namespace Writer

open Builder (Call Error)
open Store

/-! ## Writers and builders -/

/-- What a writer and a builder may both make of something. A writer may run out of numbers. -/
inductive Agreement {α β : Type} (R : α → β → Prop) : Except Error α → Except Error β → Prop
  | taken {a : α} {b : β} (h : R a b) : Agreement R (.ok a) (.ok b)
  | refused (e : Error) : Agreement R (.error e) (.error e)
  | crowded (y : Except Error β) : Agreement R (.error .tooManyElements) y

theorem Agreement.bind {α β γ δ : Type} {R : α → β → Prop} {S : γ → δ → Prop} {x : Except Error α}
    {y : Except Error β} {f : α → Except Error γ} {g : β → Except Error δ} (h : Agreement R x y)
    (hnext : ∀ a b, R a b → Agreement S (f a) (g b)) : Agreement S (x >>= f) (y >>= g) := by
  cases h with
  | taken h => exact hnext _ _ h
  | refused e => exact .refused e
  | crowded y => exact .crowded _

structure Alike (w : Writer) (b : Builder) : Prop where
  depth : w.opened.length = b.frames.length
  offset : w.offset = b.offset
  size : b.size = byteSize w.text
  rest : ∃ passed, cutBytes w.offset w.text = some (passed, b.rest)
  root : w.nodes = #[] ↔ b.frames = [] ∧ b.root? = none

section
variable {w : Writer} {b : Builder}

theorem Agreement.check {α β : Type} {R : α → β → Prop} {x : Except Error α} {y : Except Error β} {c d : Prop}
    [Decidable c] [Decidable d] (e : Error) (hsame : c ↔ d) (h : d → Agreement R x y) :
    Agreement R (if c then x else .error e) (if d then y else .error e) := by
  by_cases hd : d
  · rw [if_pos (hsame.mpr hd), if_pos hd]
    exact h hd
  · rw [if_neg (hsame.not.mpr hd), if_neg hd]
    exact .refused e

theorem Agreement.number {α β : Type} {R : α → β → Prop} {x : Except Error α} {y : Except Error β} {c : Prop}
    [Decidable c] (h : Agreement R x y) : Agreement R (if c then x else .error .tooManyElements) y := by
  split
  · exact h
  · exact .crowded y

theorem Alike.frames (h : Alike w b) : w.opened = [] ↔ b.frames = [] := by
  rw [← List.length_eq_zero_iff, ← List.length_eq_zero_iff, h.depth]

theorem Alike.enter (h : Alike w b) (kind : Kind) : Agreement Alike (w.enter kind) (b.enter kind) := by
  have hb : b.enter kind = if kind.isNode then if b.frames ≠ [] ∨ b.root? = none then
      .ok { b with frames := ⟨kind, []⟩ :: b.frames } else .error .secondRoot else .error (.tokenKind kind) := by
    unfold Builder.enter
    cases kind.isNode <;> cases b.frames <;> cases b.root? <;> simp
  simp only [enter_eq, checks, outcome_cons, outcome_nil, decide_eq_true_eq, hb]
  refine .check _ Iff.rfl fun _ => .number (.check _ ?_ fun _ => .number (.number (.taken ?_)))
  · have hroot := h.root
    have hframes := h.frames
    simp only [ne_eq, counted_opened, counted_nodes, Array.size_eq_zero_iff]
    grind
  · exact ⟨congrArg Nat.succ h.depth, h.offset, h.size, h.rest, by simp [entered]⟩

theorem Alike.leave (h : Alike w b) : Agreement Alike w.leave b.leave := by
  have hframes := h.frames
  obtain ⟨hdepth, hoffset, hsize, hrest, hroot⟩ := h
  obtain ⟨size, rest, offset, frames, root?⟩ := b
  simp only [leave_eq, checks, outcome_cons, outcome_nil, decide_eq_true_eq, ne_eq, counted_opened, hframes]
  have hnodes : w.left.nodes = #[] ↔ w.nodes = #[] := by
    rw [← Array.size_eq_zero_iff, left, size_onInnermost, Array.size_eq_zero_iff]
  have hlength : w.left.opened.length = frames.length - 1 := by
    rw [left, List.length_tail, hdepth]
  rcases frames with _ | ⟨frame, _ | ⟨outer, frames⟩⟩
  · exact .refused _
  · exact .number (.taken ⟨hlength, hoffset, hsize, hrest, by simp [hnodes, hroot]⟩)
  · exact .number (.taken ⟨hlength, hoffset, hsize, hrest, by simp [hnodes, hroot]⟩)

theorem Alike.leaf (h : Alike w b) (kind : Kind) (length : Nat) :
    Agreement Alike (w.leaf kind length) (b.leaf kind length) := by
  have hframes := h.frames
  obtain ⟨hdepth, hoffset, hsize, ⟨passed, hrest⟩, hroot⟩ := h
  obtain ⟨size, rest, offset, frames, root?⟩ := b
  obtain rfl : w.offset = offset := hoffset
  obtain ⟨htext, hpassed⟩ := cutBytes_eq_some hrest
  have hcut : cutBytes (w.offset + length) w.text = (cutBytes length rest).map fun parts => (passed ++ parts.1, parts.2) := by
    rw [← htext, ← hpassed, cutBytes_behind]
  have hslice : Span.slice? ⟨w.offset, w.offset + length⟩ w.text = (cutBytes length rest).map Prod.fst := by
    simp only [Span.slice?, hrest, Nat.add_sub_cancel_left, Option.bind_eq_bind, Option.bind_some]
    cases cutBytes length rest <;> rfl
  simp only [leaf_eq, leafChecks, outcome_cons, outcome_nil, decide_eq_true_eq, ne_eq, counted_opened, hframes,
    counted_offset, hslice, Builder.leaf]
  cases kind.isNode with
  | true => exact .refused _
  | false =>
    rcases frames with _ | ⟨frame, frames⟩
    · exact .refused _
    by_cases hover : maxOffset < w.offset + length
    · simpa [hover, Nat.not_le.mpr hover] using .refused _
    cases hparts : cutBytes length rest with
    | none => simpa [hover, Nat.not_lt.mp hover] using .refused _
    | some parts =>
      have halike : Alike (w.taken kind length) ⟨size, parts.2, w.offset + length,
          ⟨frame.kind, .leaf kind parts.1 :: frame.children⟩ :: frames, root?⟩ := by
        refine ⟨hdepth, rfl, hsize, ⟨passed ++ parts.1, ?_⟩, ?_⟩
        · rw [hparts] at hcut
          exact hcut
        · rw [← Array.size_eq_zero_iff, taken, size_onInnermost, Array.size_eq_zero_iff, hroot]
          simp
      simpa [hover, Nat.not_lt.mp hover] using .number (.number (.taken halike))

theorem Alike.apply (h : Alike w b) (call : Call) : Agreement Alike (w.apply call) (b.apply call) := by
  cases call with
  | enter kind => exact h.enter kind
  | leave => exact h.leave
  | leaf kind length => exact h.leaf kind length
  | blanks length =>
    by_cases hzero : length = 0
    · simpa [Writer.apply, Writer.blanks, Builder.apply, Builder.blanks, hzero] using Agreement.taken h
    · simpa [Writer.apply, Writer.blanks, Builder.apply, Builder.blanks, hzero] using h.leaf .whitespace length

theorem Alike.foldlM (h : Alike w b) (calls : List Call) :
    Agreement Alike (calls.foldlM Writer.apply w) (calls.foldlM Builder.apply b) := by
  induction calls generalizing w b with
  | nil => exact .taken h
  | cons call calls ih =>
    rw [List.foldlM_cons, List.foldlM_cons]
    exact (h.apply call).bind fun w b h => ih h

theorem Alike.finish (h : Alike w b) : Agreement (fun _ _ => True) w.finish b.finish := by
  have hframes := h.frames
  obtain ⟨hdepth, hoffset, hsize, -, hroot⟩ := h
  obtain ⟨size, rest, offset, frames, root?⟩ := b
  have hlength : w.counted.opened.length = frames.length := by rw [← hdepth]; exact List.length_map ..
  simp only [finish_eq, finishChecks, outcome_cons, outcome_nil, decide_eq_true_eq, ne_eq, counted_opened, hframes,
    hlength, counted_nodes, counted_offset, Array.size_eq_zero_iff, hroot, hoffset, ← hsize, Builder.finish]
  cases frames with
  | cons frame frames => exact .refused _
  | nil =>
    cases root? with
    | none => exact .refused _
    | some root => simpa using .check _ Iff.rfl fun _ => .taken trivial

theorem build_agrees (text : List Char) (calls : List Call) :
    Agreement (fun _ _ => True) (build text calls) (Builder.build text calls) := by
  refine Agreement.bind (Alike.foldlM ?_ calls) fun w b h => h.finish
  refine ⟨rfl, rfl, rfl, ?_, ?_⟩
  · exact ⟨[], by simp [ofText, Builder.ofText, cutBytes]⟩
  · simp [ofText, Builder.ofText]

/-- What a writer makes is the store of the tree that a builder makes of the same calls. -/
theorem exists_of_build {text : List Char} {calls : List Call} {store : Store} (h : build text calls = .ok store) :
    ∃ tree, Builder.build text calls = .ok tree ∧ store = .ofTree tree := by
  have hagrees := build_agrees text calls
  have hstore := build_eq text calls
  rw [h] at hagrees hstore
  cases hbuild : Builder.build text calls with
  | error e => rw [hbuild] at hagrees; cases hagrees
  | ok tree =>
    obtain ⟨hcalls, htext⟩ := Builder.built_of_build hbuild
    obtain ⟨hnodes, hleaves⟩ := written_of_calls text hcalls
    refine ⟨tree, rfl, ?_⟩
    cases hfault : firstFault? text calls (calls.length + 1) with
    | some e => rw [hfault] at hstore; cases hstore
    | none =>
      rw [hfault, hnodes, hleaves, ← htext] at hstore
      exact Except.ok.inj hstore

/-! ## Numbers -/

structure Numbered (w : Writer) : Prop where
  nodes : w.nodes.size ≤ maxOffset + 1
  leaves : w.leaves.size ≤ maxOffset
  children : ∀ node, w.childCount node ≤ maxOffset + 1

theorem firstFailing_eq_none_iff {checks : List Check} :
    firstFailing checks = none ↔ ∀ c ∈ checks, c.holds = true := by
  simp [firstFailing]

theorem exists_of_firstFailing {checks : List Check} {e : Error} (h : firstFailing checks = some e) :
    ∃ c ∈ checks, c.holds = false ∧ c.error = e := by
  obtain ⟨c, hc, herror⟩ := Option.map_eq_some_iff.mp h
  exact ⟨c, List.mem_of_find?_eq_some hc, by simpa using List.find?_some hc, herror⟩

theorem count_le (t : Tally) (call : Call) : t.nodes ≤ (t.count call).nodes ∧ t.leaves ≤ (t.count call).leaves := by
  cases call with
  | blanks length => by_cases hzero : length = 0 <;> simp [Tally.count, Tally.leaf, hzero]
  | _ => simp [Tally.count, Tally.leaf]

theorem Numbered.before {call : Call} (h : w.Ordered) (hn : Numbered (w.perform call)) : Numbered w := by
  obtain ⟨hnodes, hleaves⟩ := count_le w.counted call
  rw [← counted_perform h] at hnodes hleaves
  refine ⟨Nat.le_trans hnodes hn.nodes, Nat.le_trans hleaves hn.leaves, fun node => ?_⟩
  exact Nat.le_trans (by rw [childCount_perform h]; exact Nat.le_add_right ..) (hn.children node)

theorem Numbered.siblings {call : Call} (h : w.Ordered) (hn : Numbered (w.perform call)) (hadds : adds call = true) :
    w.siblings ≤ maxOffset := by
  unfold Writer.siblings
  cases hopened : w.opened with
  | nil => exact Nat.zero_le _
  | cons node opened =>
    have hchildren := hn.children node
    rw [childCount_perform h, if_pos ⟨hadds, by rw [hopened]; rfl⟩] at hchildren
    exact Nat.le_of_succ_le_succ hchildren

/-- A call that leaves numbers enough is not refused for want of them. -/
theorem Numbered.not_crowded {call : Call} (h : w.Ordered) (hn : Numbered (w.perform call)) (text : List Char) :
    firstFailing (checks text w.counted call) ≠ some .tooManyElements := by
  intro hcrowded
  have hleaves := (hn.before h).leaves
  have hsiblings := hn.siblings h
  have hleaf : ∀ kind length, adds call = true →
      firstFailing (leafChecks text w.counted kind length) ≠ some .tooManyElements := by
    intro kind length hadds hcrowded
    obtain ⟨c, hc, hholds, herror⟩ := exists_of_firstFailing hcrowded
    simp only [leafChecks, List.mem_cons, List.not_mem_nil, or_false] at hc
    rcases hc with rfl | rfl | rfl | rfl | rfl | rfl <;> simp_all
  cases call with
  | enter kind =>
    have hnodes := hn.nodes
    obtain ⟨c, hc, hholds, herror⟩ := exists_of_firstFailing hcrowded
    simp only [checks, List.mem_cons, List.not_mem_nil, or_false] at hc
    rcases hc with rfl | rfl | rfl | rfl | rfl <;> simp_all [perform, entered, adds]
  | leaf kind length => exact hleaf kind length rfl hcrowded
  | blanks length =>
    by_cases hzero : length = 0
    · simp [checks, hzero, firstFailing] at hcrowded
    · exact hleaf .whitespace length (by simpa [adds] using hzero) (by simpa [checks, hzero] using hcrowded)
  | leave =>
    obtain ⟨c, hc, hholds, herror⟩ := exists_of_firstFailing hcrowded
    simp only [checks, List.mem_cons, List.not_mem_nil, or_false] at hc
    rcases hc with rfl | rfl <;> simp_all

theorem siblings_eq {node : Nat} (h : w.opened.head? = some node) : w.siblings = w.childCount node := by
  unfold siblings
  cases hopened : w.opened with
  | nil => simp [hopened] at h
  | cons last opened =>
    rw [hopened] at h
    cases h
    rfl

/-- Whether the calls so far were numbered. The place behind the leaves is numbered only when a node is left. -/
structure Bounded (w : Writer) : Prop where
  nodes : w.nodes.size ≤ maxOffset + 1
  leaves : w.opened = [] → w.leaves.size ≤ maxOffset
  children : ∀ node, w.childCount node ≤ maxOffset + 1

theorem Bounded.childCount_perform (h : w.Ordered) (hb : Bounded w) (call : Call)
    (hsiblings : adds call = true → w.siblings ≤ maxOffset) (node : Nat) :
    (w.perform call).childCount node ≤ maxOffset + 1 := by
  rw [Writer.childCount_perform h]
  by_cases hadds : adds call = true ∧ w.opened.head? = some node
  · rw [if_pos hadds, ← siblings_eq hadds.2]
    exact Nat.succ_le_succ (hsiblings hadds.1)
  · rw [if_neg hadds]
    exact hb.children node

theorem Bounded.taken (h : w.Ordered) (hb : Bounded w) {text : List Char} {kind : Kind} {length : Nat}
    (hchecks : firstFailing (leafChecks text w.counted kind length) = none) : Bounded (w.taken kind length) := by
  rw [firstFailing_eq_none_iff] at hchecks
  simp only [leafChecks, List.forall_mem_cons, decide_eq_true_eq, ne_eq, counted_opened, counted_siblings] at hchecks
  obtain ⟨-, hopen, -, -, -, hsiblings, -⟩ := hchecks
  refine ⟨by simpa [Writer.taken] using hb.nodes, fun hopened => absurd hopened hopen, ?_⟩
  exact hb.childCount_perform h (.leaf kind length) fun _ => hsiblings

theorem Bounded.perform (h : w.Ordered) (hb : Bounded w) {text : List Char} {call : Call}
    (hchecks : firstFailing (checks text w.counted call) = none) : Bounded (w.perform call) := by
  cases call with
  | enter kind =>
    rw [firstFailing_eq_none_iff] at hchecks
    simp only [checks, List.forall_mem_cons, decide_eq_true_eq] at hchecks
    simp only [counted_nodes, counted_siblings] at hchecks
    obtain ⟨-, hnodes, -, hsiblings, -⟩ := hchecks
    refine ⟨?_, fun hopened => by simp [Writer.perform, entered] at hopened, ?_⟩
    · simpa [Writer.perform, entered] using hnodes
    · exact hb.childCount_perform h (.enter kind) fun _ => hsiblings
  | leaf kind length => exact hb.taken h hchecks
  | blanks length =>
    by_cases hzero : length = 0
    · simpa [Writer.perform, hzero] using hb
    · simpa [Writer.perform, hzero] using hb.taken h (by simpa [checks, hzero] using hchecks)
  | leave =>
    rw [firstFailing_eq_none_iff] at hchecks
    simp only [checks, List.forall_mem_cons, decide_eq_true_eq] at hchecks
    obtain ⟨-, hleaves, -⟩ := hchecks
    refine ⟨by simpa [Writer.perform, left] using hb.nodes, fun _ => hleaves, ?_⟩
    exact hb.childCount_perform h .leave fun hadds => by cases hadds

theorem numbered_iff {tree : Tree} (hnodes : w.nodes = (ofTree tree).nodes) (hleaves : w.leaves = (ofTree tree).leaves) :
    Numbered w ↔ tree.Indexable := by
  have hcount : w.nodes.size = tree.nodeCount := by rw [hnodes, size_nodes]
  have hcount' : w.leaves.size = tree.leafCount := by rw [hleaves, size_leaves]
  constructor
  · intro h
    refine ⟨hcount ▸ h.nodes, hcount' ▸ h.leaves, fun p hp => ?_⟩
    cases hleaf : p.isLeaf with
    | true => simp [(Place.walk_leaf hleaf).2]
    | false =>
      have hrecord := node_ofTree (Place.mem_nodes_iff.mpr ⟨hp, hleaf⟩)
      have hchildren := h.children p.nodesBefore
      rw [childCount_eq, hnodes, hrecord] at hchildren
      simpa [Place.nodeRecord] using hchildren
  · intro h
    refine ⟨hcount ▸ h.nodes, hcount' ▸ h.leaves, fun node => ?_⟩
    rw [childCount_eq, hnodes]
    cases hrecord : (ofTree tree).nodes[node]? with
    | none => exact Nat.zero_le _
    | some record =>
      obtain ⟨p, hp, -, rfl⟩ := exists_of_node hrecord
      simpa [Place.nodeRecord] using h.children p (Place.mem_nodes_iff.mp hp).1

section
variable {text : List Char} {calls : List Call}

theorem numbered_append {more : List Call} (h : Numbered (written text (calls ++ more))) :
    Numbered (written text calls) := by
  induction more using List.reverseRecOn with
  | nil => rwa [List.append_nil] at h
  | append_singleton more call ih =>
    rw [← List.append_assoc, written_concat] at h
    exact ih (h.before (ordered_written _ _))

theorem build_ne_crowded (h : Numbered (written text calls)) : build text calls ≠ .error .tooManyElements := by
  rw [build_eq]
  intro herror
  cases hfault : firstFault? text calls (calls.length + 1) with
  | none => rw [hfault] at herror; cases herror
  | some e =>
    rw [hfault] at herror
    cases herror
    obtain ⟨place, hplace, -, hfault⟩ := (firstFault?_eq_some_iff _ _).mp hfault
    unfold fault? at hfault
    cases hcall : calls[place]? with
    | some call =>
      have hsplit : calls = (calls.take place ++ [call]) ++ calls.drop (place + 1) := by
        obtain ⟨hlt, rfl⟩ := List.getElem?_eq_some_iff.mp hcall
        simp
      rw [hsplit] at h
      have hnumbered := numbered_append h
      rw [written_concat] at hnumbered
      rw [hcall, ← counted_written text] at hfault
      exact hnumbered.not_crowded (ordered_written _ _) text hfault
    | none =>
      rw [hcall] at hfault
      obtain ⟨c, hc, -, herror⟩ := exists_of_firstFailing hfault
      simp only [finishChecks, List.mem_cons, List.not_mem_nil, or_false] at hc
      rcases hc with rfl | rfl | rfl <;> cases herror

theorem bounded_written (h : ∀ p < calls.length, fault? text calls p = none) : Bounded (written text calls) := by
  induction calls using List.reverseRecOn with
  | nil => exact ⟨Nat.zero_le _, fun _ => Nat.zero_le _, fun _ => Nat.zero_le _⟩
  | append_singleton calls call ih =>
    rw [List.length_append, List.length_singleton, Nat.forall_lt_succ_right, fault?_concat] at h
    obtain ⟨hbefore, hlast⟩ := h
    rw [← counted_written text] at hlast
    rw [written_concat]
    refine (ih fun p hp => ?_).perform (ordered_written _ _) hlast
    rw [← hbefore p hp, fault?_append hp]

theorem numbered_of_build {store : Store} (h : build text calls = .ok store) : Numbered (written text calls) := by
  rw [build_eq] at h
  cases hfault : firstFault? text calls (calls.length + 1) with
  | some e => rw [hfault] at h; cases h
  | none =>
    rw [firstFault?_eq_none_iff, Nat.forall_lt_succ_right, fault?_length] at hfault
    obtain ⟨hcalls, hend⟩ := hfault
    obtain ⟨hnodes, hleaves, hchildren⟩ := bounded_written hcalls
    rw [← counted_written text, firstFailing_eq_none_iff] at hend
    simp only [finishChecks, List.forall_mem_cons, decide_eq_true_eq, counted_opened] at hend
    exact ⟨hnodes, hleaves hend.1, hchildren⟩

theorem build_of_builder {tree : Tree} (h : Builder.build text calls = .ok tree) :
    build text calls = .ok (.ofTree tree) ∨ build text calls = .error .tooManyElements := by
  have hagrees := build_agrees text calls
  cases hstore : build text calls with
  | ok store =>
    obtain ⟨tree', htree, rfl⟩ := exists_of_build hstore
    rw [h] at htree
    cases htree
    exact .inl rfl
  | error e =>
    rw [hstore, h] at hagrees
    cases hagrees
    exact .inr rfl

/-- Where there are numbers for all elements, a writer makes the store of what a builder makes. -/
theorem build_of_indexable {tree : Tree} (h : Builder.build text calls = .ok tree) (hindexable : tree.Indexable) :
    build text calls = .ok (.ofTree tree) := by
  obtain ⟨hnodes, hleaves⟩ := written_of_calls text (Builder.built_of_build h).1
  exact (build_of_builder h).resolve_right (build_ne_crowded ((numbered_iff hnodes hleaves).mpr hindexable))

theorem indexable_of_build {tree : Tree} {store : Store} (h : Builder.build text calls = .ok tree)
    (hstore : build text calls = .ok store) : tree.Indexable := by
  obtain ⟨hnodes, hleaves⟩ := written_of_calls text (Builder.built_of_build h).1
  exact (numbered_iff hnodes hleaves).mp (numbered_of_build hstore)

/-- Calls build a store exactly if they spell a tree with numbers for all of its elements, and the store is
that of the tree. Otherwise the first call with a failing check is refused, or the end if no call has one,
with what the first of its failing checks says. -/
theorem build_iff (hsize : byteSize text ≤ maxOffset) :
    (∀ store, build text calls = .ok store ↔
      ∃ tree, tree.SpelledBy text calls ∧ tree.Indexable ∧ store = .ofTree tree) ∧
      ∀ e, build text calls = .error e ↔ ∃ place, place ≤ calls.length ∧
        (∃ w, (calls.take place).foldlM apply (ofText text) = .ok w ∧ w.refusal? calls[place]? = some e) ∧
          (∀ p < place, fault? text calls p = none) ∧ fault? text calls place = some e := by
  refine ⟨fun store => ⟨fun h => ?_, fun ⟨tree, hspelled, hindexable, hstore⟩ => ?_⟩, fun e => ⟨fun h => ?_, ?_⟩⟩
  · obtain ⟨tree, hbuild, hstore⟩ := exists_of_build h
    exact ⟨tree, Builder.spelledBy_of_build hbuild, indexable_of_build hbuild h, hstore⟩
  · rw [hstore]
    exact build_of_indexable (Builder.build_of_spelledBy hsize hspelled) hindexable
  · rw [build_eq] at h
    cases hfault : firstFault? text calls (calls.length + 1) with
    | none => rw [hfault] at h; cases h
    | some e' =>
      rw [hfault] at h
      cases h
      obtain ⟨place, hplace, hbefore, hfault⟩ := (firstFault?_eq_some_iff _ _).mp hfault
      have hplace := Nat.le_of_lt_succ hplace
      exact ⟨place, hplace, ⟨_, run_before hplace hbefore, (refusal?_written place).trans hfault⟩, hbefore, hfault⟩
  · intro ⟨place, hplace, _, hbefore, hfault⟩
    rw [build_eq, (firstFault?_eq_some_iff _ _).mpr ⟨place, Nat.lt_succ_of_le hplace, hbefore, hfault⟩]
    rfl

end

end

/-- A leaf that ends within a character, and behind it a node that no call closes. -/
theorem build_iff_torn :
    let calls : List Call := [.enter .sourceFile, .blanks 0, .leaf .ident 1, .enter .command]
    byteSize "é".toList ≤ maxOffset ∧
      ∃ place, place ≤ calls.length ∧
        (∃ w, (calls.take place).foldlM apply (ofText "é".toList) = .ok w ∧
          w.refusal? calls[place]? = some (.offText .ident ⟨0, 1⟩)) ∧
        (∀ p < place, fault? "é".toList calls p = none) ∧
          fault? "é".toList calls place = some (.offText .ident ⟨0, 1⟩) :=
  ⟨by decide, ((build_iff (by decide)).2 (.offText .ident ⟨0, 1⟩)).mp rfl⟩

section
variable (n : Nat)

def crowd : Tree := .node .sourceFile (List.replicate n (.leaf .eof []))

def crowdCalls : List Call := .enter .sourceFile :: (List.replicate n (.leaf .eof 0) ++ [.leave])

theorem leafCount_crowd : (crowd n).leafCount = n := by
  rw [crowd, Tree.leafCount, ← Tree.length_leavesAll, Tree.leavesAll_eq, List.flatMap_replicate]
  simp [Tree.leaves]

theorem crowd_spelledBy : (crowd n).SpelledBy [] (crowdCalls n) := by
  refine ⟨rfl, ⟨rfl, ?_⟩, ?_, ?_⟩
  · rw [Tree.allOf_iff]
    intro t ht
    rw [(List.mem_replicate.mp ht).2]
    rfl
  · simp [crowd, crowdCalls, Tree.calls, callsAll_eq, List.flatMap_replicate, Call.shown]
  · rw [crowd, Tree.text, ← Tree.flatMap_text_leavesAll, Tree.leavesAll_eq, List.flatMap_replicate]
    simp [Tree.leaves, Tree.text]

theorem build_crowdCalls (h : maxOffset < n) : build [] (crowdCalls n) = .error .tooManyElements := by
  have hbuild := Builder.build_of_spelledBy (Nat.zero_le _) (crowd_spelledBy n)
  refine (build_of_builder hbuild).resolve_left fun hstore => ?_
  have hleaves := (indexable_of_build hbuild hstore).leaves
  rw [leafCount_crowd] at hleaves
  exact absurd h (Nat.not_lt.mpr hleaves)

end

/-- More leaves than there are places behind leaves. -/
theorem build_crowded :
    byteSize [] ≤ maxOffset ∧ (∃ tree : Tree, tree.SpelledBy [] (crowdCalls (maxOffset + 1))) ∧
      build [] (crowdCalls (maxOffset + 1)) = .error .tooManyElements :=
  ⟨Nat.zero_le _, ⟨crowd (maxOffset + 1), crowd_spelledBy _⟩, build_crowdCalls _ (Nat.lt_succ_self _)⟩

end Writer

end Dofile
