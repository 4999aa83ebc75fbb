import Dofile.Proofs.Builder
import Dofile.Proofs.Walk

/-!
# What a builder builds

The walk of a tree that was built shows the calls that built it. Between two calls the
open nodes of the builder, and its root once that is finished, hold all calls made so far,
and their leaves are the text that was taken.
-/

namespace Dofile

namespace Tree

mutual

def calls : Tree → List Builder.Call
  | .leaf kind text => [.leaf kind (byteSize text)]
  | .node kind ts => .enter kind :: (callsAll ts ++ [.leave])

def callsAll : List Tree → List Builder.Call
  | [] => []
  | t :: ts => t.calls ++ callsAll ts

end

theorem callsAll_append (ts us : List Tree) : callsAll (ts ++ us) = callsAll ts ++ callsAll us := by
  induction ts with
  | nil => simp [callsAll]
  | cons t ts ih => simp [callsAll, ih]

end Tree

def Visit.call : Visit → Builder.Call
  | .enter p => .enter p.kind
  | .leaf p => .leaf p.kind p.tree.size
  | .leave _ => .leave

namespace Place

mutual

theorem map_call_walkTree (start : Nat) (above : List Crumb) : ∀ t : Tree,
    (walkTree start above t).map Visit.call = t.calls
  | .leaf _ _ => by simp [walkTree, Visit.call, Tree.calls, Place.kind, Tree.kind, Tree.size]
  | .node kind ts => by
    rw [walkTree, List.map_cons, List.map_append, map_call_walkTrees]
    rfl

theorem map_call_walkTrees (kind : Kind) (start : Nat) (above : List Crumb) (pos : Nat)
    (before : List Tree) : ∀ ts : List Tree,
    (walkTrees kind start above pos before ts).map Visit.call = Tree.callsAll ts
  | [] => rfl
  | t :: ts => by rw [walkTrees, List.map_append, map_call_walkTree, map_call_walkTrees, Tree.callsAll]

end

end Place

namespace Builder

/-- What a tree shows of a call: blanks of no length leave no leaf. -/
def Call.shown : Call → List Call
  | .blanks length => if length = 0 then [] else [.leaf .whitespace length]
  | call => [call]

def Frame.calls (f : Frame) : List Call := .enter f.kind :: Tree.callsAll f.children.reverse

def calls (b : Builder) : List Call :=
  b.frames.reverse.flatMap Frame.calls ++ (b.root?.map Tree.calls).getD []

def taken (b : Builder) : List Char :=
  b.frames.reverse.flatMap (fun f => Tree.textAll f.children.reverse) ++ (b.root?.map Tree.text).getD []

structure Built (text : List Char) (calls : List Call) (b : Builder) : Prop where
  held : b.calls = calls.flatMap Call.shown
  offset : b.offset = byteSize b.taken
  size : b.size = byteSize text
  text : b.taken ++ b.rest = text
  root : b.frames ≠ [] → b.root? = none

section
variable {text : List Char} {calls : List Call} {b b' : Builder}

theorem built_ofText (text : List Char) : Built text [] (ofText text) :=
  ⟨rfl, rfl, rfl, rfl, fun _ => rfl⟩

/-- A call takes a stretch of the text, if any, and adds what a tree shows of it to what is held. -/
theorem Built.step (h : Built text calls b) {call : Call} {t : List Char} (hcalls : b'.calls = b.calls ++ call.shown)
    (htaken : b'.taken = b.taken ++ t) (hrest : b.rest = t ++ b'.rest) (hoffset : b'.offset = b.offset + byteSize t)
    (hsize : b'.size = b.size) (hroot : b'.frames ≠ [] → b'.root? = none) : Built text (calls ++ [call]) b' where
  held := by rw [hcalls, h.held, List.flatMap_append, List.flatMap_singleton]
  offset := by rw [hoffset, htaken, byteSize_append, h.offset]
  size := hsize.trans h.size
  text := by rw [htaken, List.append_assoc, ← hrest, h.text]
  root := hroot

theorem Built.enter (h : Built text calls b) {kind : Kind} (hb : b.enter kind = .ok b') :
    Built text (calls ++ [.enter kind]) b' := by
  unfold Builder.enter at hb
  split at hb
  · cases hb
  · split at hb
    · cases hb
    · rename_i hopen
      cases hb
      have hnone : b.root? = none := by
        cases hframes : b.frames with
        | nil => simpa [hframes] using hopen
        | cons frame frames => exact h.root (by simp [hframes])
      refine h.step (t := []) ?_ ?_ rfl rfl rfl fun _ => hnone
      · simp [Builder.calls, Frame.calls, hnone, Tree.callsAll, Call.shown]
      · simp [taken, Tree.textAll]

theorem Built.leave (h : Built text calls b) (hb : b.leave = .ok b') :
    Built text (calls ++ [.leave]) b' := by
  obtain ⟨size, rest, offset, frames, root?⟩ := b
  cases frames with
  | nil => cases hb
  | cons frame frames =>
    obtain rfl : root? = none := h.root (by simp)
    -- the outermost node becomes the root, any other a child of the one around it
    cases frames with
    | nil =>
      cases hb
      refine h.step (t := []) ?_ ?_ rfl rfl rfl fun hn => absurd rfl hn
      · simp [Builder.calls, Frame.calls, Tree.calls, Call.shown]
      · simp [taken, Tree.text]
    | cons outer frames =>
      cases hb
      refine h.step (t := []) ?_ ?_ rfl rfl rfl fun _ => rfl
      · simp [Builder.calls, Frame.calls, Tree.callsAll_append, Tree.callsAll, Tree.calls, Call.shown]
      · simp [taken, Tree.text, Tree.textAll_append, Tree.textAll]

theorem Built.leaf (h : Built text calls b) {kind : Kind} {length : Nat}
    (hb : b.leaf kind length = .ok b') : Built text (calls ++ [.leaf kind length]) b' := by
  obtain ⟨size, rest, offset, frames, root?⟩ := b
  unfold Builder.leaf at hb
  split at hb
  · cases hb
  · cases frames with
    | nil => cases hb
    | cons frame frames =>
      obtain rfl : root? = none := h.root (by simp)
      simp only at hb
      split at hb
      · cases hb
      · split at hb
        · cases hb
        · rename_i leafText rest' hcut
          obtain ⟨rfl, rfl⟩ := cutBytes_eq_some hcut
          cases hb
          refine h.step ?_ ?_ rfl rfl rfl fun _ => rfl
          · simp [Builder.calls, Frame.calls, Tree.callsAll_append, Tree.callsAll, Tree.calls, Call.shown]
          · simp [taken, Tree.textAll_append, Tree.textAll, Tree.text]

theorem Built.apply (h : Built text calls b) {call : Call} (hb : b.apply call = .ok b') :
    Built text (calls ++ [call]) b' := by
  cases call with
  | enter kind => exact h.enter hb
  | leaf kind length => exact h.leaf hb
  | leave => exact h.leave hb
  | blanks length =>
    change b.blanks length = .ok b' at hb
    unfold blanks at hb
    split at hb
    · rename_i hzero
      cases hb
      obtain ⟨hcalls, hoffset, hsize, htext, hroot⟩ := h
      exact ⟨by simp [hcalls, Call.shown, hzero], hoffset, hsize, htext, hroot⟩
    · rename_i hlength
      obtain ⟨hcalls, hoffset, hsize, htext, hroot⟩ := h.leaf hb
      exact ⟨by simp [hcalls, Call.shown, hlength], hoffset, hsize, htext, hroot⟩

/-- What every call keeps is kept by a run. -/
theorem keeps_of_foldlM {P : List Call → Builder → Prop}
    (hstep : ∀ calls b call b', P calls b → b.apply call = .ok b' → P (calls ++ [call]) b') {more : List Call}
    (h : P calls b) (hb : more.foldlM Builder.apply b = .ok b') : P (calls ++ more) b' := by
  induction more generalizing b calls with
  | nil =>
    cases hb
    rwa [List.append_nil]
  | cons call more ih =>
    rw [List.foldlM_cons] at hb
    cases hcall : b.apply call with
    | error e => rw [hcall] at hb; cases hb
    | ok c =>
      rw [hcall] at hb
      have := ih (hstep calls b call c h hcall) hb
      rwa [List.append_assoc] at this

theorem Built.foldlM {more : List Call} (h : Built text calls b) (hb : more.foldlM Builder.apply b = .ok b') :
    Built text (calls ++ more) b' :=
  keeps_of_foldlM (fun _ _ _ _ h hcall => h.apply hcall) h hb

theorem Built.finish {tree : Tree} (h : Built text calls b) (hb : b.finish = .ok tree) :
    tree.calls = calls.flatMap Call.shown ∧ tree.text = text := by
  obtain ⟨hcalls, hoffset, hsize, htext, hroot⟩ := h
  obtain ⟨size, rest, offset, frames, root?⟩ := b
  unfold Builder.finish at hb
  split at hb
  · cases hb
  · rename_i hframes
    obtain rfl : frames = [] := by simpa using hframes
    cases root? with
    | none => cases hb
    | some root =>
      simp only at hb hsize
      split at hb
      · rename_i hall
        cases hb
        have hrest : rest = [] := by
          rw [← byteSize_eq_zero_iff]
          have := congrArg byteSize htext
          rw [byteSize_append, ← hoffset] at this
          simp only at this
          omega
        subst hrest
        exact ⟨hcalls, by simpa [taken] using htext⟩
      · cases hb

theorem built_of_build {tree : Tree} (h : build text calls = .ok tree) :
    tree.calls = calls.flatMap Call.shown ∧ tree.text = text := by
  unfold build at h
  cases hfold : calls.foldlM Builder.apply (ofText text) with
  | error e => rw [hfold] at h; cases h
  | ok b =>
    rw [hfold] at h
    exact Built.finish (Built.foldlM (built_ofText text) hfold) h

end

end Builder

end Dofile
