import Dofile.Proofs.Script

/-!
# Growing a builder

What the calls of a builder do once its root is open: `grow` adds finished trees to
the innermost open node, and `openAll` opens nodes within it.
-/

namespace Dofile.Builder

/-- Finished trees as the next children of the innermost open node. -/
def grow (b : Builder) (trees : List Tree) : Builder :=
  { b with
    rest := b.rest.drop (Tree.textAll trees).length
    offset := b.offset + byteSize (Tree.textAll trees)
    frames := match b.frames with
      | [] => []
      | frame :: frames => ⟨frame.kind, trees.reverse ++ frame.children⟩ :: frames }

def openAll (b : Builder) (kinds : List Kind) : Builder :=
  { b with frames := (kinds.map fun kind => ⟨kind, []⟩).reverse ++ b.frames }

structure Fits (b : Builder) (text : List Char) : Prop where
  frames : b.frames ≠ []
  rest : text <+: b.rest
  offset : b.offset + byteSize text ≤ maxOffset

@[simp] theorem grow_nil (b : Builder) : b.grow [] = b := by
  obtain ⟨size, rest, offset, frames, root⟩ := b
  cases frames <;> simp [grow, Tree.textAll]

theorem grow_grow (b : Builder) (ts us : List Tree) : (b.grow ts).grow us = b.grow (ts ++ us) := by
  obtain ⟨size, rest, offset, frames, root⟩ := b
  cases frames <;> simp [grow, Tree.textAll_append, Nat.add_assoc]

@[simp] theorem openAll_nil (b : Builder) : b.openAll [] = b := rfl

theorem openAll_openAll (b : Builder) (ks ls : List Kind) :
    (b.openAll ks).openAll ls = b.openAll (ks ++ ls) := by
  simp [openAll]

theorem frames_grow_ne_nil {b : Builder} (h : b.frames ≠ []) (trees : List Tree) :
    (b.grow trees).frames ≠ [] := by
  obtain ⟨size, rest, offset, frames, root⟩ := b
  cases frames with
  | nil => exact absurd rfl h
  | cons frame frames => simp [grow]

theorem frames_openAll_ne_nil {b : Builder} (h : b.frames ≠ []) (kinds : List Kind) :
    (b.openAll kinds).frames ≠ [] := by
  simp [openAll, h]

namespace Fits

theorem left {b : Builder} {text more : List Char} (h : b.Fits (text ++ more)) : b.Fits text where
  frames := h.frames
  rest := (List.prefix_append text more).trans h.rest
  offset := by
    have := h.offset
    rw [byteSize_append] at this
    omega

theorem right {b : Builder} {trees : List Tree} {more : List Char}
    (h : b.Fits (Tree.textAll trees ++ more)) : (b.grow trees).Fits more where
  frames := frames_grow_ne_nil h.frames trees
  rest := by
    obtain ⟨tail, htail⟩ := h.rest
    refine ⟨tail, ?_⟩
    simp only [grow]
    rw [← htail, List.append_assoc, List.drop_left]
  offset := by
    have := h.offset
    rw [byteSize_append] at this
    simp only [grow]
    omega

theorem openAll {b : Builder} {text : List Char} (h : b.Fits text) (kinds : List Kind) :
    (b.openAll kinds).Fits text :=
  ⟨frames_openAll_ne_nil h.frames kinds, h.rest, h.offset⟩

end Fits

/-! ## Calls -/

theorem enter_eq {b : Builder} (hb : b.frames ≠ []) {kind : Kind} (hk : kind.isNode = true) :
    b.enter kind = .ok (b.openAll [kind]) := by
  obtain ⟨size, rest, offset, frames, root⟩ := b
  cases frames with
  | nil => exact absurd rfl hb
  | cons frame frames => simp [enter, hk, Builder.openAll]

theorem foldlM_enter_eq : ∀ {kinds : List Kind} {b : Builder}, b.frames ≠ [] →
    (∀ k ∈ kinds, k.isNode = true) → kinds.foldlM enter b = .ok (b.openAll kinds)
  | [], _, _, _ => rfl
  | kind :: kinds, b, hb, hk => by
    rw [List.foldlM_cons, enter_eq hb (hk kind (by simp))]
    have hrest : ∀ k ∈ kinds, k.isNode = true := fun k h => hk k (List.mem_cons_of_mem _ h)
    have := foldlM_enter_eq (frames_openAll_ne_nil hb [kind]) hrest
    rw [openAll_openAll] at this
    exact this

theorem leave_eq {b : Builder} (hb : b.frames ≠ []) (kind : Kind) (trees : List Tree) :
    ((b.openAll [kind]).grow trees).leave = .ok (b.grow [.node kind trees]) := by
  obtain ⟨size, rest, offset, frames, root⟩ := b
  cases frames with
  | nil => exact absurd rfl hb
  | cons frame frames => simp [leave, Builder.openAll, grow, Tree.textAll, Tree.text]

theorem leaf_eq {b : Builder} {kind : Kind} {text : List Char} (hk : kind.isNode = false)
    (h : b.Fits text) : b.leaf kind (byteSize text) = .ok (b.grow [.leaf kind text]) := by
  obtain ⟨size, rest, offset, frames, root⟩ := b
  obtain ⟨hframes, ⟨tail, htail⟩, hoffset⟩ := h
  simp only at hframes htail hoffset
  subst htail
  cases frames with
  | nil => exact absurd rfl hframes
  | cons frame frames =>
    have hle : ¬ maxOffset < offset + byteSize text := by omega
    simp [leaf, hk, hle, cutBytes_byteSize, grow, Tree.textAll, Tree.text]

theorem byteSize_eq_zero_iff (text : List Char) : byteSize text = 0 ↔ text = [] := by
  cases text with
  | nil => simp
  | cons c text =>
    have := c.utf8Size_pos
    simp only [byteSize_cons, reduceCtorEq, iff_false]
    omega

theorem blanks_eq {b : Builder} {blanks : List Char} (h : b.Fits blanks) :
    b.blanks (byteSize blanks) = .ok (b.grow (Script.blankLeaf blanks)) := by
  cases blanks with
  | nil => simp [Builder.blanks, Script.blankLeaf]
  | cons c blanks =>
    have hne : byteSize (c :: blanks) ≠ 0 := by rw [Ne, byteSize_eq_zero_iff]; simp
    rw [Builder.blanks, if_neg hne]
    exact leaf_eq (by decide) h

end Dofile.Builder
