import Dofile.Kind.Set
import Mathlib.Data.Nat.Bitwise

/-!
# Sets of kinds as bits

A set of kinds is told by its bits, numbered through both of its words. The bit of a
kind has the kind's index for its number, a union has the bits of both sets, and a set
made of lists has no other bits, so two of them are equal if they contain the same kinds.
-/

namespace Dofile.Kind.Set

/-- Whether the bit of a number is set, counted from the low word on. -/
def bit (s : Set) (i : Nat) : Bool :=
  (if i / 64 = 0 then s.low else s.high).toNat.testBit (i % 64)

theorem toNat_mask (k : Kind) : (mask k).toNat = 2 ^ (k.index % 64) := by
  have hlt : 2 ^ (k.index % 64) < 2 ^ 64 := Nat.pow_lt_pow_right (by decide) (Nat.mod_lt _ (by decide))
  simp only [mask, UInt64.toNat_shiftLeft, UInt64.toNat_ofNat', UInt64.toNat_one, Nat.one_shiftLeft]
  have hshift : k.index % 64 % 2 ^ 64 % 64 = k.index % 64 := by omega
  rw [hshift, Nat.mod_eq_of_lt hlt]

theorem contains_eq_bit (s : Set) (k : Kind) : s.contains k = s.bit k.index := by
  have h : (s.slot k &&& mask k = 0) ↔ s.bit k.index = false := by
    rw [← UInt64.toNat_inj, UInt64.toNat_and, toNat_mask, Nat.and_two_pow]
    unfold slot bit
    generalize (if k.index / 64 = 0 then s.low else s.high).toNat.testBit (k.index % 64) = b
    cases b <;> simp
  unfold contains
  by_cases hbit : s.bit k.index
  · simp [hbit, h]
  · simp [hbit, h.mpr (by simpa using hbit)]

theorem word_eq {a b : UInt64} (h : ∀ j < 64, a.toNat.testBit j = b.toNat.testBit j) : a = b := by
  apply UInt64.toNat_inj.mp
  apply Nat.eq_of_testBit_eq; intro j
  by_cases hj : j < 64
  · exact h j hj
  · have hpow : 2 ^ 64 ≤ 2 ^ j := Nat.pow_le_pow_right (by decide) (Nat.le_of_not_lt hj)
    rw [Nat.testBit_lt_two_pow (Nat.lt_of_lt_of_le a.toNat_lt hpow),
      Nat.testBit_lt_two_pow (Nat.lt_of_lt_of_le b.toNat_lt hpow)]

theorem eq_of_bit {a b : Set} (h : ∀ i < 128, a.bit i = b.bit i) : a = b := by
  have hlow : a.low = b.low := word_eq fun j hj => by
    simpa [bit, Nat.div_eq_of_lt hj, Nat.mod_eq_of_lt hj] using h j (by omega)
  have hhigh : a.high = b.high := word_eq fun j hj => by
    have hslot : (64 + j) / 64 ≠ 0 := by omega
    simpa [bit, hslot, Nat.mod_eq_of_lt hj] using h (64 + j) (by omega)
  cases a
  cases b
  simp_all

@[simp] theorem bit_empty (i : Nat) : empty.bit i = false := by
  unfold bit
  split <;> simp [empty]

@[simp] theorem bit_union (a b : Set) (i : Nat) : (a.union b).bit i = (a.bit i || b.bit i) := by
  unfold bit
  split <;> simp [union]

theorem bit_singleton (k : Kind) {i : Nat} (hi : i < 128) : (singleton k).bit i = (k.index == i) := by
  rw [beq_eq_decide]
  have hk := k.index_lt
  unfold bit singleton
  by_cases hword : k.index / 64 = i / 64
  · have hsame : k.index % 64 = i % 64 ↔ k.index = i := by omega
    by_cases hlow : i / 64 = 0
    · simp [hword, hlow, toNat_mask, Nat.testBit_two_pow, hsame]
    · simp [hword, hlow, toNat_mask, Nat.testBit_two_pow, hsame]
  · have hne : k.index ≠ i := fun h => hword (by rw [h])
    by_cases hlow : i / 64 = 0
    · have : k.index / 64 ≠ 0 := by omega
      simp [this, hlow, hne]
    · have : k.index / 64 = 0 := by omega
      simp [this, hlow, hne]

theorem bit_foldl (kinds : List Kind) (s : Set) {i : Nat} (hi : i < 128) :
    (kinds.foldl (fun s k => s.union (singleton k)) s).bit i = (s.bit i || kinds.any (·.index == i)) := by
  induction kinds generalizing s with
  | nil => simp
  | cons k kinds ih => simp [ih, bit_singleton k hi, Bool.or_assoc]

theorem bit_ofList (kinds : List Kind) {i : Nat} (hi : i < 128) :
    (ofList kinds).bit i = kinds.any (·.index == i) := by
  rw [ofList, bit_foldl kinds empty hi, bit_empty, Bool.false_or]

inductive Assembly where
  | ofList (kinds : List Kind)
  | union (a b : Assembly)

namespace Assembly

def set : Assembly → Set
  | .ofList kinds => Set.ofList kinds
  | .union a b => a.set.union b.set

def lists : Assembly → List (List Kind)
  | .ofList kinds => [kinds]
  | .union a b => a.lists ++ b.lists

theorem bit_set (a : Assembly) {i : Nat} (hi : i < 128) :
    a.set.bit i = a.lists.flatten.any (·.index == i) := by
  induction a with
  | ofList kinds => simp [set, lists, bit_ofList kinds hi]
  | union a b iha ihb => simp only [set, lists, bit_union, iha, ihb, List.flatten_append, List.any_append]

theorem contains_iff (a : Assembly) (k : Kind) : a.set.contains k = true ↔ k ∈ a.lists.flatten := by
  rw [contains_eq_bit, bit_set a (Nat.lt_trans k.index_lt (by decide)), List.any_eq_true]
  constructor
  · rintro ⟨k', hk', hindex⟩
    exact index_injective (beq_iff_eq.mp hindex) ▸ hk'
  · intro hk
    exact ⟨k, hk, by simp⟩

/-- Sets made of the same kinds have the same bits, in whatever order and however often the kinds came. -/
theorem set_eq_of_contains {a b : Assembly} (h : ∀ k, a.set.contains k = b.set.contains k) : a.set = b.set := by
  apply eq_of_bit; intro i hi
  rw [bit_set a hi, bit_set b hi, Bool.eq_iff_iff, List.any_eq_true, List.any_eq_true]
  have hmem : ∀ k, k ∈ a.lists.flatten ↔ k ∈ b.lists.flatten := fun k => by
    rw [← contains_iff, ← contains_iff, h]
  simp only [hmem]

/-- A set holds the kinds of the lists it was made of and no others, equal sets are those that hold the same
kinds, and two words have a bit for every kind. -/
theorem sets_of_lists (a : Assembly) :
    (∀ k, a.set.contains k = true ↔ ∃ kinds ∈ a.lists, k ∈ kinds) ∧
      (∀ b : Assembly, a.set = b.set ↔ ∀ k, a.set.contains k = b.set.contains k) ∧
      ∀ k : Kind, k.index / 64 < 2 ∧ (mask k).toNat = 2 ^ (k.index % 64) := by
  refine ⟨fun k => ?_, fun b => ⟨fun h k => by rw [h], set_eq_of_contains⟩, fun k => ⟨?_, toNat_mask k⟩⟩
  · rw [contains_iff, List.mem_flatten]
  · have := k.index_lt
    omega

/-- The words meet between the local macros of the third level and those of the fourth. -/
example : Set.ofList [localMacroAt 3, localMacroAt 4] = ⟨2 ^ 63, 1⟩ := by cbv

end Assembly

end Dofile.Kind.Set
