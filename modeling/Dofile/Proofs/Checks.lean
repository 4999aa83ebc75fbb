import Dofile.Proofs.Writing
import Mathlib.Data.List.Induction

/-!
# The checks of a writer

Before each call stand a few checks of what the calls so far have made: how many elements, how
far into the text, and below which nodes. A writer refuses a call with what the first failing
check says, and writes what the calls write if none fails.
-/

namespace Dofile

namespace Writer

open Builder (Call Error)
open Store

/-! ## Checks -/

structure Tally where
  nodes : Nat
  leaves : Nat
  /-- For each open node its children so far, the innermost first. -/
  opened : List Nat
  offset : Nat

def Tally.siblings (t : Tally) : Nat := t.opened.headD 0

def Tally.leaf (t : Tally) (length : Nat) : Tally :=
  { t with leaves := t.leaves + 1, opened := t.opened.modifyHead (· + 1), offset := t.offset + length }

def Tally.count (t : Tally) : Call → Tally
  | .enter _ => { t with nodes := t.nodes + 1, opened := 0 :: t.opened.modifyHead (· + 1) }
  | .leaf _ length => t.leaf length
  | .blanks length => if length = 0 then t else t.leaf length
  | .leave => { t with opened := t.opened.tail }

def tally (calls : List Call) : Tally := calls.foldl Tally.count ⟨0, 0, [], 0⟩

structure Check where
  holds : Bool
  error : Error

def firstFailing (checks : List Check) : Option Error := (checks.find? fun c => !c.holds).map Check.error

section
variable (text : List Char) (t : Tally)

def leafChecks (kind : Kind) (length : Nat) : List Check :=
  [⟨!kind.isNode, .nodeKind kind⟩,
    ⟨t.opened ≠ [], .noOpenNode⟩,
    ⟨t.offset + length ≤ maxOffset, .offsetOverflow⟩,
    ⟨(Span.slice? ⟨t.offset, t.offset + length⟩ text).isSome, .offText kind ⟨t.offset, t.offset + length⟩⟩,
    ⟨t.leaves ≤ maxOffset, .tooManyElements⟩,
    ⟨t.siblings ≤ maxOffset, .tooManyElements⟩]

/-- The checks of a call, in the order in which they are made. -/
def checks : Call → List Check
  | .enter kind =>
    [⟨kind.isNode, .tokenKind kind⟩,
      ⟨t.nodes ≤ maxOffset, .tooManyElements⟩,
      ⟨t.opened ≠ [] ∨ t.nodes = 0, .secondRoot⟩,
      ⟨t.siblings ≤ maxOffset, .tooManyElements⟩,
      ⟨t.leaves ≤ maxOffset, .tooManyElements⟩]
  | .leaf kind length => leafChecks text t kind length
  | .blanks length => if length = 0 then [] else leafChecks text t .whitespace length
  | .leave => [⟨t.opened ≠ [], .noOpenNode⟩, ⟨t.leaves ≤ maxOffset, .tooManyElements⟩]

def finishChecks : List Check :=
  [⟨t.opened = [], .unfinishedNodes t.opened.length⟩,
    ⟨t.nodes ≠ 0, .noRoot⟩,
    ⟨t.offset = byteSize text, .uncoveredText t.offset (byteSize text)⟩]

end

/-- What the first failing check says of the call in some place, or of the end behind the last call. -/
def fault? (text : List Char) (calls : List Call) (place : Nat) : Option Error :=
  match calls[place]? with
  | some call => firstFailing (checks text (tally (calls.take place)) call)
  | none => firstFailing (finishChecks text (tally (calls.take place)))

def errorOf {α : Type} : Except Error α → Option Error
  | .ok _ => none
  | .error e => some e

def refusal? (w : Writer) : Option Call → Option Error
  | some call => errorOf (w.apply call)
  | none => errorOf w.finish

def outcome {α : Type} (refusal : Option Error) (a : α) : Except Error α :=
  match refusal with
  | some e => .error e
  | none => .ok a

theorem outcome_cons {α : Type} (c : Check) (checks : List Check) (a : α) :
    outcome (firstFailing (c :: checks)) a =
      if c.holds then outcome (firstFailing checks) a else .error c.error := by
  cases h : c.holds <;> simp [outcome, firstFailing, h]

theorem outcome_nil {α : Type} (a : α) : outcome (firstFailing []) a = .ok a := rfl

@[simp] theorem errorOf_outcome {α : Type} (refusal : Option Error) (a : α) : errorOf (outcome refusal a) = refusal := by
  cases refusal <;> rfl

/-! ## The checks are those of the writer -/

def counted (w : Writer) : Tally := ⟨w.nodes.size, w.leaves.size, w.opened.map w.childCount, w.offset⟩

section
variable (w : Writer)

theorem ensure_bind {α : Type} (holds : Bool) (e : Error) (f : Unit → Except Error α) :
    (ensure holds e >>= f) = if holds then f () else .error e := by
  cases holds <;> rfl

@[simp] theorem counted_nodes : w.counted.nodes = w.nodes.size := rfl

@[simp] theorem counted_leaves : w.counted.leaves = w.leaves.size := rfl

@[simp] theorem counted_offset : w.counted.offset = w.offset := rfl

@[simp] theorem counted_opened : w.counted.opened = [] ↔ w.opened = [] := by simp [counted]

@[simp] theorem counted_siblings : w.counted.siblings = w.siblings := by
  unfold counted siblings
  cases w.opened <;> rfl

theorem enter_eq (kind : Kind) :
    w.enter kind = outcome (firstFailing (checks w.text w.counted (.enter kind))) (w.entered kind) := by
  have hsiblings : w.opened = [] → w.siblings = 0 := fun h => by rw [siblings, h]
  simp only [enter, ensureNumber, ensure_bind, checks, outcome_cons, outcome_nil, decide_eq_true_eq]
  by_cases hopened : w.opened = []
  · simp [hopened, hsiblings hopened, pure, Except.pure]
    rfl
  · simp [hopened, pure, Except.pure]
    rfl

theorem leave_eq : w.leave = outcome (firstFailing (checks w.text w.counted .leave)) w.left := by
  simp only [leave, ensureNumber, ensure_bind, checks, outcome_cons, outcome_nil, decide_eq_true_eq]
  simp [pure, Except.pure]
  rfl

theorem leaf_eq (kind : Kind) (length : Nat) :
    w.leaf kind length = outcome (firstFailing (leafChecks w.text w.counted kind length)) (w.taken kind length) := by
  simp only [leaf, ensureNumber, ensure_bind, leafChecks, outcome_cons, outcome_nil, decide_eq_true_eq]
  simp [pure, Except.pure]

theorem finish_eq :
    w.finish = outcome (firstFailing (finishChecks w.text w.counted)) ⟨w.text, w.nodes, w.leaves⟩ := by
  have hlength : w.counted.opened.length = w.opened.length := List.length_map ..
  simp only [finish, ensure_bind, finishChecks, outcome_cons, outcome_nil, decide_eq_true_eq, hlength]
  simp [pure, Except.pure]
  rfl

theorem apply_eq (call : Call) :
    w.apply call = outcome (firstFailing (checks w.text w.counted call)) (w.perform call) := by
  cases call with
  | enter kind => exact w.enter_eq kind
  | leave => exact w.leave_eq
  | leaf kind length => exact w.leaf_eq kind length
  | blanks length =>
    by_cases hzero : length = 0
    · simp [apply, blanks, checks, perform, hzero, outcome_nil]
    · simpa [apply, blanks, checks, perform, hzero] using w.leaf_eq .whitespace length

/-! ## What is counted is what is written -/

structure Ordered (w : Writer) : Prop where
  pairwise : w.opened.Pairwise (· > ·)
  lt : ∀ node ∈ w.opened, node < w.nodes.size

variable {w}

theorem ordered_ofText (text : List Char) : (ofText text).Ordered := ⟨.nil, by simp [ofText]⟩

theorem Ordered.taken (h : w.Ordered) (kind : Kind) (length : Nat) : (w.taken kind length).Ordered :=
  ⟨h.pairwise, by simpa [Writer.taken] using h.lt⟩

theorem Ordered.perform (h : w.Ordered) (call : Call) : (w.perform call).Ordered := by
  cases call with
  | enter kind =>
    refine ⟨List.pairwise_cons.mpr ⟨h.lt, h.pairwise⟩, ?_⟩
    simpa [Writer.perform, entered] using fun node hnode => Nat.lt_succ_of_lt (h.lt node hnode)
  | leaf kind length => exact h.taken kind length
  | blanks length =>
    simp only [Writer.perform]
    split
    · exact h
    · exact h.taken .whitespace length
  | leave =>
    refine ⟨h.pairwise.tail, fun node hnode => ?_⟩
    simpa [Writer.perform, left] using h.lt node (List.mem_of_mem_tail hnode)

theorem childCount_eq (w : Writer) (node : Nat) :
    w.childCount node = (w.nodes[node]?.map (·.children.size)).getD 0 := by
  unfold childCount
  cases w.nodes[node]? <;> rfl

/-- Whether a call adds a child to the innermost open node. -/
def adds : Call → Bool
  | .enter _ => true
  | .leaf _ _ => true
  | .blanks length => length ≠ 0
  | .leave => false

theorem childCount_adopt (h : w.Ordered) {w' : Writer} {r : Ref} {node : Nat}
    (hnode : w'.nodes[node]? = (w.onInnermost (adopt r))[node]?) :
    w'.childCount node = w.childCount node + if w.opened.head? = some node then 1 else 0 := by
  rw [childCount_eq, childCount_eq, hnode]
  cases hopened : w.opened with
  | nil => simp [onInnermost, hopened]
  | cons last opened =>
    have hlast : last < w.nodes.size := h.lt last (by simp [hopened])
    by_cases hsame : last = node
    · subst hsame
      simp [onInnermost, hopened, Array.getElem_modify, hlast, adopt]
    · simp [onInnermost, hopened, Array.getElem?_modify, hsame]

theorem childCount_perform (h : w.Ordered) (call : Call) (node : Nat) : (w.perform call).childCount node =
    w.childCount node + if adds call ∧ w.opened.head? = some node then 1 else 0 := by
  have htaken : ∀ (kind : Kind) (length : Nat), (w.taken kind length).childCount node =
      w.childCount node + if w.opened.head? = some node then 1 else 0 :=
    fun kind length => childCount_adopt h (r := .leaf w.leaves.size) rfl
  cases call with
  | enter kind =>
    simp only [perform, adds, true_and]
    by_cases hnode : node < w.nodes.size
    · refine childCount_adopt h (r := .node w.nodes.size) ?_
      rw [entered, Array.getElem?_push_lt (by simpa using hnode), Array.getElem?_eq_getElem]
    · have hopened : w.opened.head? ≠ some node := fun hhead => hnode (h.lt node (List.mem_of_mem_head? hhead))
      have hnone : w.nodes[node]? = none := Array.getElem?_eq_none (Nat.not_lt.mp hnode)
      rw [if_neg hopened, childCount_eq, childCount_eq, hnone, entered, Array.getElem?_push]
      by_cases hnew : node = w.nodes.size
      · simp [hnew, fresh]
      · simp [hnew, Nat.not_lt.mp hnode]
  | leaf kind length => simpa [perform, adds] using htaken kind length
  | blanks length =>
    by_cases hzero : length = 0
    · simp [perform, adds, hzero]
    · simpa [perform, adds, hzero] using htaken .whitespace length
  | leave =>
    simp only [perform, adds, left, onInnermost, childCount_eq]
    cases w.opened with
    | nil => simp
    | cons last opened => by_cases hlast : last = node <;> simp [Array.getElem?_modify, hlast, complete, Function.comp_def]

/-- Where a child is added, the count of the innermost open node goes up, and no other one's. -/
theorem map_childCount_perform (h : w.Ordered) (call : Call) : w.opened.map (w.perform call).childCount =
    if adds call then (w.opened.map w.childCount).modifyHead (· + 1) else w.opened.map w.childCount := by
  have hcount := childCount_perform h call
  by_cases hadds : adds call = true
  · rw [if_pos hadds]
    have hpairwise := h.pairwise
    cases hopened : w.opened with
    | nil => rfl
    | cons last opened =>
      rw [hopened] at hpairwise
      simp only [hadds, hopened, List.head?_cons, Option.some.injEq, true_and] at hcount
      simp only [List.map_cons, List.modifyHead_cons, hcount, if_true, List.cons.injEq, true_and]
      refine List.map_congr_left fun other hother => ?_
      have hne := Nat.ne_of_gt ((List.pairwise_cons.mp hpairwise).1 other hother)
      rw [hcount, if_neg hne, Nat.add_zero]
  · rw [if_neg hadds]
    exact List.map_congr_left fun node _ => by simp [hcount, hadds]

theorem counted_perform (h : w.Ordered) (call : Call) : (w.perform call).counted = w.counted.count call := by
  have hopened := map_childCount_perform h call
  cases call with
  | enter kind =>
    have hfresh : (w.entered kind).childCount w.nodes.size = 0 := by
      simp [childCount_eq, entered, fresh, Array.getElem_push]
    have hall : (w.entered kind).opened = w.nodes.size :: w.opened := rfl
    simp only [adds, if_true, perform] at hopened
    simp only [perform, counted, Tally.count, hall, List.map_cons, hfresh, ← hopened]
    simp [entered]
  | leaf kind length => simpa [perform, adds, counted, Tally.count, Tally.leaf, taken] using hopened
  | blanks length =>
    by_cases hzero : length = 0
    · simp [perform, Tally.count, hzero]
    · simpa [perform, adds, counted, Tally.count, Tally.leaf, taken, hzero] using hopened
  | leave =>
    simp only [perform, adds, Bool.false_eq_true, if_false] at hopened
    simp only [perform, counted, Tally.count, ← hopened]
    simp [left]

end

section
variable {text : List Char} {calls : List Call}

theorem written_concat (text : List Char) (calls : List Call) (call : Call) :
    written text (calls ++ [call]) = (written text calls).perform call := List.foldl_append

theorem text_written (text : List Char) (calls : List Call) : (written text calls).text = text := by
  induction calls using List.reverseRecOn with
  | nil => rfl
  | append_singleton calls call ih =>
    rw [written_concat]
    cases call with
    | blanks length => rw [perform]; split <;> exact ih
    | _ => exact ih

theorem ordered_written (text : List Char) (calls : List Call) : (written text calls).Ordered := by
  induction calls using List.reverseRecOn with
  | nil => exact ordered_ofText text
  | append_singleton calls call ih =>
    rw [written_concat]
    exact ih.perform call

theorem counted_written (text : List Char) (calls : List Call) : (written text calls).counted = tally calls := by
  induction calls using List.reverseRecOn with
  | nil => rfl
  | append_singleton calls call ih =>
    rw [written_concat, counted_perform (ordered_written text calls), ih]
    simp only [tally, List.foldl_append, List.foldl_cons, List.foldl_nil]

/-! ## Runs -/

theorem apply_written (call : Call) : (written text calls).apply call =
    outcome (firstFailing (checks text (tally calls) call)) (written text (calls ++ [call])) := by
  rw [apply_eq, text_written, counted_written, written_concat]

theorem finish_written : (written text calls).finish = outcome (firstFailing (finishChecks text (tally calls)))
    ⟨text, (written text calls).nodes, (written text calls).leaves⟩ := by
  rw [finish_eq, text_written, counted_written]

theorem fault?_append {place : Nat} (h : place < calls.length) (more : List Call) :
    fault? text (calls ++ more) place = fault? text calls place := by
  unfold fault?
  rw [List.getElem?_append_left h, List.take_append_of_le_length (Nat.le_of_lt h), List.getElem?_eq_getElem h]

theorem fault?_concat (call : Call) : fault? text (calls ++ [call]) calls.length =
    firstFailing (checks text (tally calls) call) := by
  unfold fault?
  rw [List.getElem?_concat_length, List.take_left]

theorem fault?_length : fault? text calls calls.length = firstFailing (finishChecks text (tally calls)) := by
  unfold fault?
  rw [List.getElem?_eq_none (Nat.le_refl _), List.take_length]

def firstFault? (text : List Char) (calls : List Call) : Nat → Option Error
  | 0 => none
  | place + 1 => (firstFault? text calls place).or (fault? text calls place)

theorem firstFault?_eq_none_iff (place : Nat) :
    firstFault? text calls place = none ↔ ∀ p < place, fault? text calls p = none := by
  induction place with
  | zero => simp [firstFault?]
  | succ place ih => rw [firstFault?, Option.or_eq_none_iff, ih, Nat.forall_lt_succ_right]

theorem firstFault?_eq_some_iff (place : Nat) (e : Error) : firstFault? text calls place = some e ↔
    ∃ p < place, (∀ p' < p, fault? text calls p' = none) ∧ fault? text calls p = some e := by
  induction place with
  | zero => simp [firstFault?]
  | succ place ih =>
    rw [firstFault?, Option.or_eq_some_iff, ih, firstFault?_eq_none_iff, Nat.exists_lt_succ_right]

theorem firstFault?_append (text : List Char) {place : Nat} (h : place ≤ calls.length) (more : List Call) :
    firstFault? text (calls ++ more) place = firstFault? text calls place := by
  induction place with
  | zero => rfl
  | succ place ih => rw [firstFault?, ih (Nat.le_of_succ_le h), fault?_append h, firstFault?]

/-- A run fails with what its first fault says, and writes all else. -/
theorem foldlM_apply_eq (text : List Char) (calls : List Call) : calls.foldlM apply (ofText text) =
    outcome (firstFault? text calls calls.length) (written text calls) := by
  induction calls using List.reverseRecOn with
  | nil => rfl
  | append_singleton calls call ih =>
    rw [List.foldlM_append, ih, List.length_append, List.length_singleton, firstFault?,
      firstFault?_append text (Nat.le_refl _), fault?_concat]
    cases firstFault? text calls calls.length with
    | some e => rfl
    | none =>
      change [call].foldlM apply (written text calls) = _
      rw [List.foldlM_cons, apply_written, Option.none_or]
      cases firstFailing (checks text (tally calls) call) <;> rfl

theorem build_eq (text : List Char) (calls : List Call) : build text calls =
    outcome (firstFault? text calls (calls.length + 1))
      ⟨text, (written text calls).nodes, (written text calls).leaves⟩ := by
  rw [build, foldlM_apply_eq, firstFault?, fault?_length]
  cases firstFault? text calls calls.length with
  | some e => rfl
  | none =>
    change (written text calls).finish = _
    rw [finish_written, Option.none_or]

/-- A writer refuses a call, or its end, with what the first failing check says. -/
theorem refusal?_written (place : Nat) :
    (written text (calls.take place)).refusal? calls[place]? = fault? text calls place := by
  unfold fault? refusal?
  cases calls[place]? with
  | some call => simp only [apply_written, errorOf_outcome]
  | none => simp only [finish_written, errorOf_outcome]

theorem run_before {place : Nat} (hplace : place ≤ calls.length) (h : ∀ p < place, fault? text calls p = none) :
    (calls.take place).foldlM apply (ofText text) = .ok (written text (calls.take place)) := by
  have hlength : (calls.take place).length = place := List.length_take_of_le hplace
  have hsame := firstFault?_append text (Nat.le_of_eq hlength.symm) (calls.drop place)
  rw [List.take_append_drop, (firstFault?_eq_none_iff place).mpr h] at hsame
  rw [foldlM_apply_eq, hlength, ← hsame]
  rfl

end

end Writer

end Dofile
