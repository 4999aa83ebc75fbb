import Dofile.Proofs.Build
import Dofile.Proofs.Form

/-!
# What calls spell

Calls that a builder takes spell a tree over the text: a root and all below it, each element
from one or two of them. Any tree over a text that offsets can measure is spelled so, and a
builder builds it from such calls.
-/

namespace Dofile

namespace Tree

def HasOwnKind (t : Tree) : Prop := t.kind.isNode = !t.isLeaf

/-- Whether calls spell a tree over a text. Its root is a node. Each of its elements comes from
one or two of the calls, in their order, and its leaves split the text. -/
structure SpelledBy (tree : Tree) (text : List Char) (calls : List Builder.Call) : Prop where
  root : tree.isLeaf = false
  kinds : tree.All HasOwnKind
  calls : tree.calls = calls.flatMap Builder.Call.shown
  text : tree.text = text

end Tree

namespace Builder

def Call.HasKind : Call → Prop
  | .enter kind => kind.isNode = true
  | .leaf kind _ => kind.isNode = false
  | _ => True

section
variable {text : List Char} {calls : List Call} {b b' : Builder}

/-! ## What is taken has its own kind -/

theorem hasKind_of_apply {call : Call} (h : b.apply call = .ok b') : call.HasKind := by
  cases call with
  | enter kind => by_contra hkind; simp_all [Builder.apply, enter, Call.HasKind]
  | leaf kind length => by_contra hkind; simp_all [Builder.apply, leaf, Call.HasKind]
  | _ => trivial

/-- A root is a node that was left. -/
theorem isLeaf_of_apply {call : Call} (h : b.apply call = .ok b') (hroot : ∀ root ∈ b.root?, root.isLeaf = false) :
    ∀ root ∈ b'.root?, root.isLeaf = false := by
  obtain ⟨size, rest, offset, frames, root?⟩ := b
  have hleaf : ∀ (kind : Kind) (length : Nat) {b' : Builder},
      (⟨size, rest, offset, frames, root?⟩ : Builder).leaf kind length = .ok b' → b'.root? = root? := by
    intro kind length b' h
    unfold leaf at h
    grind
  cases call with
  | enter kind => simp only [Builder.apply, enter] at h; grind
  | leaf kind length => rwa [hleaf kind length h]
  | blanks length =>
    simp only [Builder.apply, blanks] at h
    split at h
    · cases h
      exact hroot
    · rwa [hleaf .whitespace length h]
  | leave =>
    simp only [Builder.apply, leave] at h
    rcases frames with _ | ⟨frame, _ | ⟨outer, frames⟩⟩ <;> cases h
    · simp [Tree.isLeaf]
    · exact hroot

theorem foldlM_shown (calls : List Call) (b : Builder) :
    (calls.flatMap Call.shown).foldlM Builder.apply b = calls.foldlM Builder.apply b := by
  induction calls generalizing b with
  | nil => rfl
  | cons call calls ih =>
    have hshown : call.shown.foldlM Builder.apply b = b.apply call := by
      cases call with
      | blanks length =>
        by_cases hzero : length = 0
        · simp [Call.shown, Builder.apply, blanks, hzero, pure, Except.pure]
        · simp [Call.shown, Builder.apply, blanks, hzero]
      | _ => simp [Call.shown]
    rw [List.flatMap_cons, List.foldlM_append, hshown, List.foldlM_cons]
    cases b.apply call with
    | error e => rfl
    | ok c => exact ih c

mutual

theorem foldlM_calls : ∀ (t : Tree) {b : Builder}, t.All Tree.HasOwnKind → b.Fits t.text →
    t.calls.foldlM Builder.apply b = .ok (b.grow [t])
  | .leaf kind text, b, hkinds, hfits => by
    have hkind : kind.isNode = false := hkinds
    have hleaf : b.apply (.leaf kind (byteSize text)) = .ok (b.grow [.leaf kind text]) := leaf_eq hkind hfits
    rw [Tree.calls, List.foldlM_cons, hleaf]
    rfl
  | .node kind ts, b, ⟨hkind, hkinds⟩, hfits => by
    have henter := enter_eq hfits.frames (show kind.isNode = true from hkind)
    have hinside := foldlM_callsAll ts hkinds (hfits.openAll [kind])
    have hleave := leave_eq hfits.frames kind ts
    simp only [Tree.calls, List.foldlM_cons, Builder.apply, henter, List.foldlM_append, bind, Except.bind,
      List.foldlM_nil] at hinside hleave ⊢
    rw [hinside]
    simp only [hleave]
    rfl

theorem foldlM_callsAll : ∀ (ts : List Tree) {b : Builder}, Tree.AllOf Tree.HasOwnKind ts →
    b.Fits (Tree.textAll ts) → (Tree.callsAll ts).foldlM Builder.apply b = .ok (b.grow ts)
  | [], b, _, _ => by simp [Tree.callsAll, pure, Except.pure]
  | t :: ts, b, ⟨hkind, hkinds⟩, hfits => by
    have hfirst := foldlM_calls t hkind hfits.left
    have hfits' : (b.grow [t]).Fits (Tree.textAll ts) := by
      apply Fits.right
      simpa [Tree.textAll] using hfits
    have hrest := foldlM_callsAll ts hkinds hfits'
    rw [Tree.callsAll, List.foldlM_append, hfirst]
    rw [grow_grow] at hrest
    exact hrest

end

mutual

theorem all_of_calls : ∀ t : Tree, (∀ call ∈ t.calls, call.HasKind) → t.All Tree.HasOwnKind
  | .leaf kind text, h => h (.leaf kind (byteSize text)) (by simp [Tree.calls])
  | .node kind ts, h => by
    have hkind : kind.isNode = true := h (.enter kind) (by simp [Tree.calls])
    exact ⟨hkind, all_of_callsAll ts fun call hcall => h call (by simp [Tree.calls, hcall])⟩

theorem all_of_callsAll : ∀ ts : List Tree, (∀ call ∈ Tree.callsAll ts, call.HasKind) →
    Tree.AllOf Tree.HasOwnKind ts
  | [], _ => trivial
  | t :: ts, h =>
    ⟨all_of_calls t fun call hcall => h call (by simp [Tree.callsAll, hcall]),
      all_of_callsAll ts fun call hcall => h call (by simp [Tree.callsAll, hcall])⟩

end

theorem hasKind_shown {call c : Call} (hk : call.HasKind) (hc : c ∈ call.shown) : c.HasKind := by
  cases call with
  | blanks length =>
    by_cases hzero : length = 0
    · simp [Call.shown, hzero] at hc
    · simp only [Call.shown, if_neg hzero, List.mem_singleton] at hc
      subst hc
      exact (rfl : Kind.isNode .whitespace = false)
  | _ =>
    simp only [Call.shown, List.mem_singleton] at hc
    rwa [hc]

theorem spelledBy_of_build {tree : Tree} (h : build text calls = .ok tree) : tree.SpelledBy text calls := by
  obtain ⟨hcalls, htext⟩ := built_of_build h
  unfold build at h
  cases hrun : calls.foldlM Builder.apply (ofText text) with
  | error e => rw [hrun] at h; cases h
  | ok b =>
    rw [hrun] at h
    obtain ⟨hkinds, hroot⟩ : (∀ call ∈ [] ++ calls, call.HasKind) ∧ ∀ root ∈ b.root?, root.isLeaf = false := by
      refine keeps_of_foldlM (P := fun calls b => (∀ call ∈ calls, call.HasKind) ∧
        ∀ root ∈ b.root?, root.isLeaf = false) (fun _ _ _ _ hb hcall => ⟨?_, isLeaf_of_apply hcall hb.2⟩) ?_ hrun
      · exact fun c hc => (List.mem_append.mp hc).elim (hb.1 c) fun hc => by
          rw [List.mem_singleton.mp hc]
          exact hasKind_of_apply hcall
      · simp [ofText]
    have hsome : b.root? = some tree := by
      change b.finish = .ok tree at h
      unfold finish at h
      grind
    refine ⟨hroot tree hsome, all_of_calls tree fun call hcall => ?_, hcalls, htext⟩
    rw [hcalls] at hcall
    obtain ⟨c, hc, hshown⟩ := List.mem_flatMap.mp hcall
    exact hasKind_shown (hkinds c hc) hshown

theorem build_of_spelledBy {tree : Tree} (hsize : byteSize text ≤ maxOffset) (h : tree.SpelledBy text calls) :
    build text calls = .ok tree := by
  obtain ⟨hroot, hkinds, hcalls, rfl⟩ := h
  cases tree with
  | leaf => cases hroot
  | node kind ts =>
    obtain ⟨hkind, hkinds⟩ := hkinds
    have hkind : kind.isNode = true := hkind
    let b : Builder := { ofText (Tree.textAll ts) with frames := [⟨kind, []⟩] }
    have henter : (ofText (Tree.textAll ts)).apply (.enter kind) = .ok b := by
      simp [Builder.apply, enter, hkind, ofText, b]
    have hinside : (Tree.callsAll ts).foldlM Builder.apply b = .ok (b.grow ts) :=
      foldlM_callsAll ts hkinds ⟨by simp [b], List.prefix_refl _, by simpa [b, ofText, Tree.text] using hsize⟩
    have hleave : (b.grow ts).apply .leave =
        .ok ⟨byteSize (Tree.textAll ts), [], byteSize (Tree.textAll ts), [], some (.node kind ts)⟩ := by
      simp [Builder.apply, leave, b, grow, ofText]
    have hrun : calls.foldlM Builder.apply (ofText (Tree.textAll ts)) = (b.grow ts).apply .leave := by
      rw [← foldlM_shown, ← hcalls, Tree.calls, List.foldlM_cons, henter]
      change (Tree.callsAll ts ++ [Call.leave]).foldlM Builder.apply b = _
      rw [List.foldlM_append, hinside]
      change [Call.leave].foldlM Builder.apply (b.grow ts) = _
      rw [List.foldlM_cons, hleave]
      rfl
    rw [Tree.text, build, hrun, hleave]
    simp [finish, bind, Except.bind]

end

end Builder

end Dofile
