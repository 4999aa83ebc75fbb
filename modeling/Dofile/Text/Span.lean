/-!
# Byte offsets

Places in a text are counted in the bytes of its UTF-8 form. `byteSize` measures
a text, `cutBytes` splits it at an offset that does not lie inside a character,
and a `Span` is a stretch between two offsets.
-/

namespace Dofile

/-- The number of bytes of a text in UTF-8. -/
def byteSize : List Char → Nat
  | [] => 0
  | c :: text => c.utf8Size + byteSize text

@[simp] theorem byteSize_nil : byteSize [] = 0 := rfl

@[simp] theorem byteSize_cons (c : Char) (text : List Char) :
    byteSize (c :: text) = c.utf8Size + byteSize text := rfl

@[simp] theorem byteSize_append (a b : List Char) : byteSize (a ++ b) = byteSize a + byteSize b := by
  induction a with
  | nil => simp
  | cons c a ih => simp [ih, Nat.add_assoc]

theorem length_le_byteSize (text : List Char) : text.length ≤ byteSize text := by
  induction text with
  | nil => exact Nat.le_refl 0
  | cons c text ih =>
    have := c.utf8Size_pos
    simp only [List.length_cons, byteSize_cons]
    omega

/-- The text before an offset and the text from there on. An offset past the end
or inside a character has no such parts. -/
def cutBytes : Nat → List Char → Option (List Char × List Char)
  | 0, text => some ([], text)
  | _ + 1, [] => none
  | n + 1, c :: text =>
    if c.utf8Size ≤ n + 1 then
      (cutBytes (n + 1 - c.utf8Size) text).map fun (before, after) => (c :: before, after)
    else none

/-- A cut loses nothing, and its first part has the size asked for. -/
theorem cutBytes_eq_some {n : Nat} {text before after : List Char}
    (h : cutBytes n text = some (before, after)) : before ++ after = text ∧ byteSize before = n := by
  induction text generalizing n before with
  | nil => cases n <;> simp_all [cutBytes]
  | cons c text ih =>
    cases n with
    | zero => simp_all [cutBytes]
    | succ n =>
      simp only [cutBytes] at h
      split at h
      · obtain ⟨⟨b, a⟩, hb, heq⟩ := Option.map_eq_some_iff.1 h
        simp only [Prod.mk.injEq] at heq
        obtain ⟨rfl, rfl⟩ := heq
        obtain ⟨rfl, hsize⟩ := ih hb
        simp only [List.cons_append, byteSize_cons, true_and]
        omega
      · cases h

/-- A text is cut behind one of its beginnings where what follows is cut. -/
theorem cutBytes_behind (n : Nat) (before text : List Char) :
    cutBytes (byteSize before + n) (before ++ text) =
      (cutBytes n text).map fun parts => (before ++ parts.1, parts.2) := by
  induction before with
  | nil => simp
  | cons c before ih =>
    have hpos := c.utf8Size_pos
    obtain ⟨k, hk⟩ : ∃ k, byteSize (c :: before) + n = k + 1 :=
      ⟨byteSize (c :: before) + n - 1, by rw [byteSize_cons]; omega⟩
    rw [hk]
    rw [byteSize_cons] at hk
    have hrest : k + 1 - c.utf8Size = byteSize before + n := by omega
    rw [List.cons_append, cutBytes, if_pos (by omega), hrest, ih, Option.map_map]
    rfl

/-- A text can be cut behind any of its beginnings. -/
theorem cutBytes_byteSize (before after : List Char) :
    cutBytes (byteSize before) (before ++ after) = some (before, after) := by
  have h := cutBytes_behind 0 before after
  rw [Nat.add_zero] at h
  rw [h]
  cases after <;> simp [cutBytes]

structure Span where
  start : Nat
  stop : Nat
  deriving DecidableEq

namespace Span

def point (offset : Nat) : Span := ⟨offset, offset⟩

def ofText (start : Nat) (text : List Char) : Span := ⟨start, start + byteSize text⟩

def render (s : Span) : String := s!"{s.start}..{s.stop}"

/-- The characters of a text that a span covers, if its ends are places of the text. -/
def slice? (s : Span) (text : List Char) : Option (List Char) := do
  let (_, after) ← cutBytes s.start text
  let (covered, _) ← cutBytes (s.stop - s.start) after
  some covered

end Span

end Dofile
