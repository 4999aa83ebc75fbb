import Dofile.Proofs.Replay

/-!
# Where nodes are opened

Where a replay comes to the start of a node that was enclosed, it opens the nodes around it
first, though their starts were logged later, and passes these by when it comes to them. The
slots of a log say what is done at each of its events. Done in their order, they are the log
of the same tree without links.
-/

namespace Dofile

inductive Move where
  /-- A node is entered, with the mark at which it can be enclosed and with its kind once it is closed. -/
  | enter (mark? : Option Nat) (kind? : Option Kind)
  | token (t : Token)
  | leave

namespace Move

def mark? : Move → Option Nat
  | .enter mark? _ => mark?
  | _ => none

def kind? : Move → Option Kind
  | .enter _ kind? => kind?
  | _ => none

def event : Move → Event
  | .enter _ kind? => .start kind? none
  | .token t => .token t
  | .leave => .finish

/-- Puts other moves in place of the one that enters the node with a mark. -/
def replace (mark : Nat) (moves : List Move) : Move → List Move
  | .enter (some m) kind? => if m = mark then moves else [.enter (some m) kind?]
  | move => [move]

theorem replace_of_ne {mark : Nat} {move : Move} (h : move.mark? ≠ some mark) (moves : List Move) :
    move.replace mark moves = [move] := by
  unfold replace
  split
  · rename_i m kind?
    rw [if_neg fun hm => h (by simp [mark?, hm])]
  · rfl

theorem replace_self (mark : Nat) (kind? : Option Kind) (moves : List Move) :
    (enter (some mark) kind?).replace mark moves = moves := by simp [replace]

theorem flatMap_replace {mark : Nat} {ms : List Move} (h : ∀ move ∈ ms, move.mark? ≠ some mark)
    (moves : List Move) : ms.flatMap (replace mark moves) = ms := by
  induction ms with
  | nil => rfl
  | cons move ms ih =>
    rw [List.flatMap_cons, replace_of_ne (h move (by simp)), ih fun m hm => h m (by simp [hm])]
    rfl

/-- Only one move enters a node by its mark. -/
theorem flatMap_replace_middle {mark : Nat} {kind? : Option Kind} {before behind : List Move}
    (h : ((before ++ .enter (some mark) kind? :: behind).filterMap mark?).Nodup) (moves : List Move) :
    (before ++ .enter (some mark) kind? :: behind).flatMap (replace mark moves) = before ++ (moves ++ behind) := by
  rw [List.filterMap_append, List.nodup_append] at h
  obtain ⟨-, hbehind, happart⟩ := h
  have hnone : ∀ {ms : List Move}, mark ∉ ms.filterMap mark? → ∀ move ∈ ms, move.mark? ≠ some mark :=
    fun hms move hmem heq => hms (List.mem_filterMap.mpr ⟨move, hmem, heq⟩)
  rw [List.flatMap_append, List.flatMap_cons, replace_self, flatMap_replace (hnone fun hmem => ?_),
    flatMap_replace (hnone (List.nodup_cons.mp hbehind).1)]
  exact happart mark hmem mark (by simp [mark?]) rfl

end Move

def Opens (moves : List Move) : Prop :=
  moves ≠ [] ∧ ∀ move ∈ moves, ∃ mark? kind?, move = .enter mark? kind?

theorem opens_singleton (mark? : Option Nat) (kind? : Option Kind) : Opens [.enter mark? kind?] := by
  simp [Opens]

theorem Opens.replace {ms moves : List Move} (h : Opens ms) (hmoves : Opens moves) (mark : Nat) :
    Opens (ms.flatMap (Move.replace mark moves)) := by
  have heach : ∀ move ∈ ms, Opens (move.replace mark moves) := by
    intro move hmem
    obtain ⟨mark?, kind?, rfl⟩ := h.2 move hmem
    by_cases hm : mark? = some mark
    · rw [hm, Move.replace_self]
      exact hmoves
    · rw [Move.replace_of_ne (by exact hm)]
      exact opens_singleton mark? kind?
  constructor
  · obtain ⟨move, ms, rfl⟩ := List.exists_cons_of_ne_nil h.1
    simp [(heach move (by simp)).1]
  · intro m hm
    obtain ⟨move, hmem, hm⟩ := List.mem_flatMap.mp hm
    exact (heach move hmem).2 m hm

/-- What a replay does at each event of a log, where the first event has the given mark. -/
inductive Slots : Nat → List Event → List (List Move) → Prop
  | nil (i : Nat) : Slots i [] []
  | token {i : Nat} {es : List Event} {slots : List (List Move)} (t : Token) (h : Slots (i + 1) es slots) :
    Slots i (.token t :: es) ([.token t] :: slots)
  | finish {i : Nat} {es : List Event} {slots : List (List Move)} (h : Slots (i + 1) es slots) :
    Slots i (.finish :: es) ([.leave] :: slots)
  | start {i : Nat} {es : List Event} {slots : List (List Move)} (kind? : Option Kind)
      (h : Slots (i + 1) es slots) :
    Slots i (.start kind? none :: es) ([.enter (some i) kind?] :: slots)
  /-- The start of a node that has been opened already. -/
  | struck {i : Nat} {es : List Event} {slots : List (List Move)} (h : Slots (i + 1) es slots) :
    Slots i (.start none none :: es) ([] :: slots)
  /-- The start of a node opens those that enclose it, which is what would be done where the link leads. -/
  | linked {i d : Nat} {es : List Event} {slots : List (List Move)} {outer : List Move} (kind : Kind)
      (h : Slots (i + 1) es slots) (hd : slots[d]? = some outer) (ho : Opens outer) :
    Slots i (.start (some kind) (some (d + 1)) :: es) ((outer ++ [.enter none (some kind)]) :: slots.set d [])

/-- What stands in one place of a list of lists, taken to the front. -/
theorem perm_flatten_set {α : Type} {xs : List (List α)} {d : Nat} {x : List α} (h : xs[d]? = some x) :
    (x ++ (xs.set d []).flatten).Perm xs.flatten := by
  induction xs generalizing d with
  | nil => simp at h
  | cons y xs ih =>
    cases d with
    | zero =>
      obtain rfl : y = x := by simpa using h
      exact .refl _
    | succ d =>
      have hperm := ih (d := d) (by simpa using h)
      rw [List.set_cons_succ, List.flatten_cons, List.flatten_cons]
      refine .trans ?_ (hperm.append_left y)
      rw [← List.append_assoc, ← List.append_assoc]
      exact List.perm_append_comm.append_right _

namespace Slots

variable {i : Nat} {es fs : List Event} {slots more : List (List Move)}

theorem length_eq (h : Slots i es slots) : slots.length = es.length := by
  induction h <;> simp_all

theorem append {k : Nat} (h : Slots i es slots) (hk : i + es.length = k) (h' : Slots k fs more) :
    Slots i (es ++ fs) (slots ++ more) := by
  subst hk
  induction h with
  | nil => exact h'
  | token t h ih => exact .token t (ih (by rwa [Nat.add_right_comm]))
  | finish h ih => exact .finish (ih (by rwa [Nat.add_right_comm]))
  | start kind? h ih => exact .start kind? (ih (by rwa [Nat.add_right_comm]))
  | struck h ih => exact .struck (ih (by rwa [Nat.add_right_comm]))
  | @linked i d es slots outer kind h hd ho ih =>
    have hlt : d < slots.length := (List.getElem?_eq_some_iff.mp hd).1
    have hall := ih (by rwa [Nat.add_right_comm])
    have := hall.linked kind (by rwa [List.getElem?_append_left hlt]) ho
    rwa [List.set_append_left _ _ hlt] at this

theorem perm_linked {d : Nat} {outer : List Move} (hd : slots[d]? = some outer) (move : Move) :
    (((outer ++ [move]) :: slots.set d []).flatten).Perm (move :: slots.flatten) := by
  have hperm := (perm_flatten_set hd).cons move
  refine .trans ?_ hperm
  rw [List.flatten_cons, List.append_assoc]
  exact List.perm_middle

/-- A move with a mark enters the node whose start has that mark, which is not linked. -/
theorem event_of_mark {mark : Nat} {kind? : Option Kind} (h : Slots i es slots)
    (hm : .enter (some mark) kind? ∈ slots.flatten) :
    ∃ m, mark = i + m ∧ es[m]? = some (.start kind? none) := by
  induction h with
  | nil => simp at hm
  | token t h ih =>
    obtain ⟨m, rfl, he⟩ := ih (by simpa using hm)
    exact ⟨m + 1, by omega, by simpa using he⟩
  | finish h ih =>
    obtain ⟨m, rfl, he⟩ := ih (by simpa using hm)
    exact ⟨m + 1, by omega, by simpa using he⟩
  | start k h ih =>
    rw [List.flatten_cons, List.singleton_append, List.mem_cons] at hm
    rcases hm with hm | hm
    · cases hm
      exact ⟨0, rfl, rfl⟩
    · obtain ⟨m, rfl, he⟩ := ih hm
      exact ⟨m + 1, by omega, by simpa using he⟩
  | struck h ih =>
    obtain ⟨m, rfl, he⟩ := ih (by simpa using hm)
    exact ⟨m + 1, by omega, by simpa using he⟩
  | linked kind h hd ho ih =>
    obtain ⟨m, rfl, he⟩ := ih (by simpa using (perm_linked hd _).mem_iff.mp hm)
    exact ⟨m + 1, by omega, by simpa using he⟩

theorem mark_ne (h : Slots (i + 1) es slots) : ∀ move ∈ slots.flatten, move.mark? ≠ some i := by
  intro move hmem hmark
  unfold Move.mark? at hmark
  split at hmark
  · subst hmark
    obtain ⟨m, hm, -⟩ := h.event_of_mark hmem
    omega
  · cases hmark

theorem nodup_marks (h : Slots i es slots) : (slots.flatten.filterMap Move.mark?).Nodup := by
  induction h with
  | nil => simp
  | token t h ih => exact ih
  | finish h ih => exact ih
  | @start i es slots kind? h ih =>
    have hfresh : i ∉ slots.flatten.filterMap Move.mark? := fun hmem => by
      obtain ⟨move, hmove, hmark⟩ := List.mem_filterMap.mp hmem
      exact h.mark_ne move hmove hmark
    exact List.nodup_cons.mpr ⟨hfresh, ih⟩
  | struck h ih => exact ih
  | linked kind h hd ho ih =>
    rw [((perm_linked hd _).filterMap Move.mark?).nodup_iff]
    exact ih

/-! ## Changes of a log -/

theorem behind {m mark : Nat} {kind? : Option Kind} (hmark : mark = i + m) (h : Slots (i + 1) es slots)
    (hm : .enter (some mark) kind? ∈ slots.flatten) :
    ∃ m', m = m' + 1 ∧ .enter (some mark) kind? ∈ slots.flatten := by
  obtain ⟨m', hm', -⟩ := h.event_of_mark hm
  exact ⟨m', by omega, hm⟩

/-- A change of a start that is not linked, with more events behind all, changes what is done
where its node is entered. -/
theorem edit {m mark : Nat} {kind? : Option Kind} {change : Event → Event} {moves : List Move}
    (h : Slots i es slots) (hmark : mark = i + m) (hm : .enter (some mark) kind? ∈ slots.flatten)
    (hmoves : Opens moves)
    (hedit : ∀ {after rest}, after.length + m + 1 = es.length → Slots (mark + 1) after rest →
      Slots mark (change (.start kind? none) :: (after ++ fs)) (moves :: (rest ++ more))) :
    Slots i (es.modify m change ++ fs) (slots.map (·.flatMap (Move.replace mark moves)) ++ more) := by
  induction h generalizing m with
  | nil => simp at hm
  | token t h ih =>
    obtain ⟨m, rfl, hm⟩ := behind hmark h (by simpa using hm)
    exact .token t (ih (by omega) hm fun hlen => hedit (by simp; omega))
  | finish h ih =>
    obtain ⟨m, rfl, hm⟩ := behind hmark h (by simpa using hm)
    exact .finish (ih (by omega) hm fun hlen => hedit (by simp; omega))
  | @start i es slots k h ih =>
    rw [List.flatten_cons, List.singleton_append, List.mem_cons] at hm
    rcases hm with hm | hm
    · cases hm
      obtain rfl : m = 0 := by omega
      have hsame : slots.map (·.flatMap (Move.replace mark moves)) = slots := by
        refine (List.map_congr_left fun ms hms => ?_).trans (List.map_id slots)
        exact Move.flatMap_replace (fun move hmove => h.mark_ne move (List.mem_flatten_of_mem hms hmove)) moves
      simpa [hsame, Move.replace_self] using hedit rfl h
    · obtain ⟨m, rfl, hm⟩ := behind hmark h hm
      have hne : (Move.enter (some i) k).mark? ≠ some mark := by simp [Move.mark?]; omega
      have := (ih (m := m) (by omega) hm fun hlen => hedit (by simp; omega)).start k
      simpa [Move.replace_of_ne hne] using this
  | struck h ih =>
    obtain ⟨m, rfl, hm⟩ := behind hmark h (by simpa using hm)
    exact .struck (ih (by omega) hm fun hlen => hedit (by simp; omega))
  | @linked i d es slots outer kind h hd ho ih =>
    obtain ⟨m, rfl, hm⟩ := behind hmark h (by simpa using (perm_linked hd _).mem_iff.mp hm)
    have hlt : d < slots.length := (List.getElem?_eq_some_iff.mp hd).1
    have hall := ih (m := m) (by omega) hm fun hlen => hedit (by simp; omega)
    have hthere : (slots.map (·.flatMap (Move.replace mark moves)) ++ more)[d]? =
        some (outer.flatMap (Move.replace mark moves)) := by
      rw [List.getElem?_append_left (by simpa using hlt), List.getElem?_map, hd]
      rfl
    have := hall.linked kind hthere (ho.replace hmoves mark)
    rw [List.set_append_left _ _ (by simpa using hlt)] at this
    simpa [List.map_set, Move.replace] using this

theorem flatten_map_replace (slots : List (List Move)) (mark : Nat) (moves : List Move) :
    (slots.map (·.flatMap (Move.replace mark moves))).flatten = slots.flatten.flatMap (Move.replace mark moves) := by
  induction slots with
  | nil => rfl
  | cons ms slots ih => simp [ih]

theorem edit_middle {mark : Nat} {kind? : Option Kind} {change : Event → Event} {before behind moves : List Move}
    (h : Slots 0 es slots) (hm : slots.flatten = before ++ .enter (some mark) kind? :: behind) (hmoves : Opens moves)
    (hedit : ∀ {after rest}, after.length + mark + 1 = es.length → Slots (mark + 1) after rest →
      Slots mark (change (.start kind? none) :: (after ++ fs)) (moves :: (rest ++ more))) :
    ∃ slots', Slots 0 (es.modify mark change ++ fs) slots' ∧
      slots'.flatten = before ++ (moves ++ behind) ++ more.flatten := by
  have hnodup := h.nodup_marks
  refine ⟨_, h.edit (Nat.zero_add mark).symm (by simp [hm]) hmoves hedit, ?_⟩
  rw [hm] at hnodup
  rw [List.flatten_append, flatten_map_replace, hm, Move.flatMap_replace_middle hnodup]

/-! ## Replays -/

/-- Whether the nodes that a slot opens can be struck from the events, which takes them from the slot. -/
def Strikes (i d : Nat) (es : List Event) (slots : List (List Move)) (outer : List Move) : Prop :=
  ∃ kinds es', Replay.strike d es = .ok (kinds, es') ∧ es'.length = es.length ∧
    Slots i es' (slots.set d []) ∧ kinds.reverse = outer.filterMap Move.kind?

theorem Strikes.cons {d : Nat} {e : Event} {outer : List Move} {slots' : List (List Move)}
    (h : Strikes (i + 1) d es slots outer)
    (hcons : ∀ {es'}, Slots (i + 1) es' (slots.set d []) → Slots i (e :: es') (slots'.set (d + 1) [])) :
    Strikes i (d + 1) (e :: es) slots' outer := by
  obtain ⟨kinds, es', hs, hlen, hslots, hkinds⟩ := h
  refine ⟨kinds, e :: es', ?_, by simp [hlen], hcons hslots, hkinds⟩
  simp [Replay.strike, hs, bind, Except.bind]

end Slots

namespace Replay

end Replay

end Dofile
