import Dofile.Word

/-!
# Word classes

The sized string types are `str` and a number written without leading zeros, so reading the digits and writing
the number are inverse. The digits may be read in 16 bits: a number that has more is too wide in any case, if
it is noticed. No word is in two classes, so the tests for them may come in any order.
-/

namespace Dofile

/-- Where no two elements pass a test, the one that does is found in any order. -/
theorem find?_eq_of_perm {α : Type} {p : α → Bool} {l l' : List α} (h : l.Perm l')
    (hone : l.Pairwise fun a b => ¬ (p a = true ∧ p b = true)) : l.find? p = l'.find? p := by
  induction h with
  | nil => rfl
  | cons a _ ih => rw [List.find?_cons, List.find?_cons, ih hone.of_cons]
  | swap a b l =>
    have hapart : ¬ (p b = true ∧ p a = true) := List.rel_of_pairwise_cons hone (by simp)
    rw [List.find?_cons, List.find?_cons, List.find?_cons, List.find?_cons]
    cases ha : p a with
    | false => rfl
    | true =>
      cases hb : p b with
      | false => rfl
      | true => exact absurd ⟨hb, ha⟩ hapart
  | trans h _ ih ih' =>
    exact (ih hone).trans (ih' (h.pairwise hone fun hab hba => hab hba.symm))

namespace Word

/-! ## Decimal digits -/

section
variable {digits : List Char}

theorem digitsValue_eq (digits : List Char) : digitsValue digits = Nat.ofDigitChars 10 digits 0 := rfl

theorem le_ofDigitChars (digits : List Char) (n : Nat) : n ≤ Nat.ofDigitChars 10 digits n := by
  induction digits generalizing n with
  | nil => exact Nat.le_refl n
  | cons c digits ih =>
    rw [Nat.ofDigitChars_cons]
    exact Nat.le_trans (by omega) (ih _)

theorem value_lt_ten {c : Char} (hc : c.isDigit = true) : c.toNat - '0'.toNat < 10 := by
  obtain ⟨-, hle⟩ := Char.isDigit_iff_toNat.mp hc
  have hnine : '9'.toNat = 57 := rfl
  have hzero : '0'.toNat = 48 := rfl
  omega

theorem digitChar_value {c : Char} (hc : c.isDigit = true) : Nat.digitChar (c.toNat - '0'.toNat) = c := by
  have hlt := value_lt_ten hc
  obtain ⟨hle, -⟩ := Char.isDigit_iff_toNat.mp hc
  apply Char.toNat_inj.mp
  rw [Nat.toNat_digitChar_of_lt_ten hlt]
  exact Nat.add_sub_cancel' hle

/-- Digits behind a number are the last digits of a larger one. -/
theorem toDigits_append (hall : ∀ c ∈ digits, c.isDigit = true) {n : Nat} (hn : 0 < n) :
    Nat.toDigits 10 n ++ digits = Nat.toDigits 10 (Nat.ofDigitChars 10 digits n) := by
  induction digits generalizing n with
  | nil => exact List.append_nil _
  | cons c digits ih =>
    have hc := hall c (by simp)
    have hlt := value_lt_ten hc
    have hone : Nat.toDigits 10 n ++ [c] = Nat.toDigits 10 (10 * n + (c.toNat - '0'.toNat)) := by
      rw [← Nat.toDigits_append_toDigits (by decide) hn hlt, Nat.toDigits_of_lt_base hlt, digitChar_value hc]
    calc Nat.toDigits 10 n ++ c :: digits
      _ = (Nat.toDigits 10 n ++ [c]) ++ digits := by rw [List.append_assoc, List.singleton_append]
      _ = _ := by rw [hone, ih (fun d hd => hall d (List.mem_cons_of_mem c hd)) (by omega), Nat.ofDigitChars_cons]

/-- Reading digits and writing the number gives the digits back, unless they begin with a zero. -/
theorem toDigits_digitsValue (hall : ∀ c ∈ digits, c.isDigit = true) {first : Char}
    (hfirst : digits.head? = some first) (hzero : first ≠ '0') :
    0 < digitsValue digits ∧ Nat.toDigits 10 (digitsValue digits) = digits := by
  obtain ⟨digits, rfl⟩ := List.head?_eq_some_iff.mp hfirst
  have hc := hall first (by simp)
  have hpos : 0 < first.toNat - '0'.toNat := by
    refine Nat.pos_of_ne_zero fun h => hzero ?_
    rw [← digitChar_value hc, h]
    rfl
  have hvalue : digitsValue (first :: digits) = Nat.ofDigitChars 10 digits (first.toNat - '0'.toNat) := by
    rw [digitsValue_eq, Nat.ofDigitChars_cons, Nat.mul_zero, Nat.zero_add]
  rw [hvalue]
  refine ⟨Nat.lt_of_lt_of_le hpos (le_ofDigitChars _ _), ?_⟩
  rw [← toDigits_append (fun d hd => hall d (List.mem_cons_of_mem first hd)) hpos,
    Nat.toDigits_of_lt_base (value_lt_ten hc), digitChar_value hc, List.singleton_append]

/-- A number is not written with a zero before it. -/
theorem head?_toDigits {n : Nat} (hn : 0 < n) : ∃ first, (Nat.toDigits 10 n).head? = some first ∧ first ≠ '0' := by
  induction n using Nat.strongRecOn with
  | ind n ih =>
    by_cases hlt : n < 10
    · refine ⟨n.digitChar, by rw [Nat.toDigits_of_lt_base hlt]; rfl, fun hzero => ?_⟩
      rw [Nat.digitChar_eq_zero] at hzero
      omega
    · have hpos : 0 < n / 10 := by omega
      obtain ⟨first, hfirst, hzero⟩ := ih (n / 10) (by omega) hpos
      refine ⟨first, ?_, hzero⟩
      rw [← Nat.div_add_mod n 10, ← Nat.toDigits_append_toDigits (by decide) hpos (Nat.mod_lt n (by decide)),
        List.head?_append, hfirst, Option.some_or]

end

/-! ## Sized string types -/

theorem isSizedString_cases {word : List Char} (h : isSizedString word = true) : ∃ width first,
    word = 's' :: 't' :: 'r' :: width ∧ width.head? = some first ∧ first ≠ '0' ∧
      (∀ c ∈ width, c.isDigit = true) ∧ digitsValue width ≤ maxStringWidth := by
  unfold isSizedString at h
  split at h
  · split at h
    · cases h
    · rename_i first _
      simp only [Bool.and_eq_true, bne_iff_ne, decide_eq_true_eq, List.all_eq_true] at h
      exact ⟨_, first, rfl, rfl, h.1.1, h.1.2, h.2⟩
  · cases h

theorem isSizedString_iff (word : List Char) : isSizedString word = true ↔
    ∃ n, 1 ≤ n ∧ n ≤ maxStringWidth ∧ word = 's' :: 't' :: 'r' :: Nat.toDigits 10 n := by
  constructor
  · intro h
    obtain ⟨width, first, rfl, hfirst, hzero, hall, hle⟩ := isSizedString_cases h
    obtain ⟨hpos, hwritten⟩ := toDigits_digitsValue hall hfirst hzero
    exact ⟨digitsValue width, hpos, hle, by rw [hwritten]⟩
  · rintro ⟨n, hpos, hle, rfl⟩
    obtain ⟨first, hfirst, hzero⟩ := head?_toDigits hpos
    have hall : (Nat.toDigits 10 n).all Char.isDigit = true :=
      List.all_eq_true.mpr fun c hc => Nat.isDigit_of_mem_toDigits (by decide) (by decide) hc
    have hvalue : digitsValue (Nat.toDigits 10 n) = n := Nat.ofDigitChars_ten_toDigits
    obtain ⟨rest, hrest⟩ := List.head?_eq_some_iff.mp hfirst
    rw [hrest] at hall hvalue ⊢
    simp [isSizedString, hzero, hall, hvalue, hle]

/-! ## Widths of 16 bits -/

def add? (a b : UInt16) : Option UInt16 := if a.toNat + b.toNat < UInt16.size then some (a + b) else none

def mul? (a b : UInt16) : Option UInt16 := if a.toNat * b.toNat < UInt16.size then some (a * b) else none

def pushDigit? (n : UInt16) (c : Char) : Option UInt16 :=
  (mul? 10 n).bind (add? · (UInt16.ofNat (c.toNat - '0'.toNat)))

/-- The number that digits write, read in 16 bits. There is none where a step needs more. -/
def readWidth? (digits : List Char) : Option UInt16 := digits.foldlM pushDigit? 0

def isSizedString16 : List Char → Bool
  | 's' :: 't' :: 'r' :: width =>
    match width with
    | [] => false
    | first :: _ => first != '0' && width.all Char.isDigit &&
      (readWidth? width).any fun n => n.toNat ≤ maxStringWidth
  | _ => false

def fit? (n : Nat) : Option UInt16 := if n < UInt16.size then some (UInt16.ofNat n) else none

theorem add?_eq (a b : UInt16) : add? a b = fit? (a.toNat + b.toNat) := by
  rw [add?, fit?, UInt16.ofNat_add, UInt16.ofNat_toNat, UInt16.ofNat_toNat]

theorem mul?_eq (a b : UInt16) : mul? a b = fit? (a.toNat * b.toNat) := by
  rw [mul?, fit?, UInt16.ofNat_mul, UInt16.ofNat_toNat, UInt16.ofNat_toNat]

theorem toNat_of_fit? {n : Nat} {a : UInt16} (h : fit? n = some a) : a.toNat = n := by
  rw [fit?] at h
  split at h
  · rename_i hlt
    obtain rfl := Option.some.inj h
    exact UInt16.toNat_ofNat_of_lt' hlt
  · cases h

theorem fit?_eq_none {n : Nat} : fit? n = none ↔ UInt16.size ≤ n := by
  simp [fit?]

theorem pushDigit?_eq (n : UInt16) {c : Char} (hc : c.isDigit = true) :
    pushDigit? n c = fit? (10 * n.toNat + (c.toNat - '0'.toNat)) := by
  have hlt := value_lt_ten hc
  have hdigit : (UInt16.ofNat (c.toNat - '0'.toNat)).toNat = c.toNat - '0'.toNat :=
    UInt16.toNat_ofNat_of_lt' (Nat.lt_trans hlt (by decide))
  rw [pushDigit?, mul?_eq]
  cases htens : fit? ((10 : UInt16).toNat * n.toNat) with
  | none =>
    have hbig : UInt16.size ≤ 10 * n.toNat := fit?_eq_none.mp htens
    exact (fit?_eq_none.mpr (by omega)).symm
  | some tens =>
    rw [Option.bind_some, add?_eq, toNat_of_fit? htens, hdigit]
    rfl

theorem readWidth?_eq {digits : List Char} (hall : ∀ c ∈ digits, c.isDigit = true) :
    readWidth? digits = fit? (digitsValue digits) := by
  suffices h : ∀ n : UInt16, digits.foldlM pushDigit? n = fit? (Nat.ofDigitChars 10 digits n.toNat) from h 0
  induction digits with
  | nil =>
    intro n
    simp [fit?, n.toNat_lt_size]
  | cons c digits ih =>
    intro n
    rw [List.foldlM_cons, pushDigit?_eq n (hall c (by simp)), Nat.ofDigitChars_cons]
    cases hnext : fit? (10 * n.toNat + (c.toNat - '0'.toNat)) with
    | none =>
      -- the digits to come make the number no smaller
      have hbig := Nat.le_trans (fit?_eq_none.mp hnext) (le_ofDigitChars digits _)
      exact (fit?_eq_none.mpr hbig).symm
    | some m =>
      rw [← toNat_of_fit? hnext]
      exact ih (fun d hd => hall d (List.mem_cons_of_mem c hd)) m

/-- A width of more than 16 bits is too wide. -/
theorem any_fit? (n : Nat) : (fit? n).any (fun a => a.toNat ≤ maxStringWidth) = decide (n ≤ maxStringWidth) := by
  cases hfit : fit? n with
  | none =>
    have hbig := fit?_eq_none.mp hfit
    have hmax : maxStringWidth < UInt16.size := by decide
    exact (decide_eq_false (by omega)).symm
  | some a => rw [Option.any_some, toNat_of_fit? hfit]

theorem isSizedString16_eq (word : List Char) : isSizedString16 word = isSizedString word := by
  by_cases hprefix : ∃ width, word = 's' :: 't' :: 'r' :: width
  · obtain ⟨width, rfl⟩ := hprefix
    cases width with
    | nil => rfl
    | cons first rest =>
      show (first != '0' && (first :: rest).all Char.isDigit && _) =
        (first != '0' && (first :: rest).all Char.isDigit && _)
      cases hall : (first :: rest).all Char.isDigit with
      | false => simp only [Bool.and_false, Bool.false_and]
      | true => rw [readWidth?_eq fun c hc => List.all_eq_true.mp hall c hc, any_fit?]
  · have hother : isSizedString word = false := by
      rw [Bool.eq_false_iff]
      exact fun h => hprefix ((isSizedString_cases h).imp fun _ h => h.choose_spec.1)
    have hother16 : isSizedString16 word = false := by
      unfold isSizedString16
      split
      · exact absurd ⟨_, rfl⟩ hprefix
      · rfl
    rw [hother, hother16]

/-! ## The order of the tests -/

/-- The tests for the classes, in the order in which `classify` goes through them. -/
def classes : List ((List Char → Bool) × Kind) :=
  [(isOneOf builtinVariables, .builtinVariable), (isOneOf controlWords, .controlKeyword),
    (fun word => isOneOf storageTypes word || isSizedString word, .typeKeyword)]

def firstClass (classes : List ((List Char → Bool) × Kind)) (word : List Char) : Kind :=
  ((classes.find? (·.1 word)).map (·.2)).getD .ident

theorem firstClass_classes (word : List Char) : firstClass classes word = classify word := by
  simp only [firstClass, classes, classify, List.find?_cons, List.find?_nil]
  cases isOneOf builtinVariables word with
  | true => rfl
  | false =>
    cases isOneOf controlWords word with
    | true => rfl
    | false => cases isOneOf storageTypes word || isSizedString word <;> rfl

theorem isOneOf_toList (words : List String) (word : String) : isOneOf words word.toList = words.contains word := by
  rw [isOneOf, String.ofList_toList]

/-- A test that no word of a list passes is apart from the test for the list. -/
theorem not_and_of_words {words : List String} {test : List Char → Bool} (h : ∀ w ∈ words, test w.toList = false)
    (word : List Char) : ¬ (isOneOf words word = true ∧ test word = true) := by
  rintro ⟨hword, htest⟩
  have hnone := h (String.ofList word) (List.contains_iff_mem.mp hword)
  rw [String.toList_ofList, htest] at hnone
  cases hnone

theorem classes_apart (word : List Char) : classes.Pairwise fun a b => ¬ (a.1 word = true ∧ b.1 word = true) := by
  refine List.pairwise_cons.mpr ⟨?_, List.pairwise_cons.mpr ⟨?_, List.pairwise_singleton ..⟩⟩
  · intro b hb
    refine not_and_of_words ?_ word
    revert b
    decide
  · intro b hb
    refine not_and_of_words ?_ word
    revert b
    decide

theorem classify_eq_typeKeyword_iff (word : List Char) :
    classify word = .typeKeyword ↔ (isOneOf storageTypes word || isSizedString word) = true := by
  unfold classify
  constructor
  · intro h
    split at h; · cases h
    split at h; · cases h
    split at h
    · assumption
    · cases h
  · intro h
    obtain ⟨hbuiltin, hrest⟩ := List.pairwise_cons.mp (classes_apart word)
    have hcontrol := List.rel_of_pairwise_cons hrest (List.mem_singleton_self _)
    rw [if_neg fun hb => hbuiltin _ (List.mem_cons_of_mem _ (List.mem_singleton_self _)) ⟨hb, h⟩,
      if_neg fun hc => hcontrol ⟨hc, h⟩, if_pos h]

/-- A word is a type exactly if it is a plain type or `str` with a number from 1 to 2045 in decimal digits. The
number may be read in 16 bits, however many digits there are: it is the same or, where it has more bits, none. No
word is in two classes, and so testing for them in any order gives the same class. -/
theorem classify_types (word : String) :
    (classify word.toList = .typeKeyword ↔
      word ∈ storageTypes ∨ ∃ n : Nat, 1 ≤ n ∧ n ≤ 2045 ∧ word = "str" ++ toString n) ∧
    (∀ digits : List Char, (∀ c ∈ digits, c.isDigit = true) → readWidth? digits =
      if digitsValue digits < UInt16.size then some (UInt16.ofNat (digitsValue digits)) else none) ∧
    isSizedString16 word.toList = isSizedString word.toList ∧
    (classes.Pairwise fun a b => ¬ (a.1 word.toList = true ∧ b.1 word.toList = true)) ∧
    ∀ tests, tests.Perm classes → firstClass tests word.toList = classify word.toList := by
  have hapart := classes_apart word.toList
  refine ⟨?_, fun digits => readWidth?_eq, isSizedString16_eq _, hapart, fun tests hperm => ?_⟩
  · have hwritten : ∀ n : Nat, word.toList = 's' :: 't' :: 'r' :: Nat.toDigits 10 n ↔ word = "str" ++ toString n := by
      intro n
      rw [← String.toList_inj, String.toList_append, Nat.toString_eq_ofList_toDigits]
      simp only [String.toList_ofList]
      rfl
    rw [classify_eq_typeKeyword_iff, Bool.or_eq_true, isOneOf_toList, List.contains_iff_mem, isSizedString_iff]
    simp only [hwritten, maxStringWidth]
  · rw [← firstClass_classes, firstClass, firstClass, find?_eq_of_perm hperm.symm hapart]

/-- 65537 has one bit too many for 16, and would be 1 without it. -/
example : classify "str2045".toList = .typeKeyword ∧ classify "str65537".toList = .ident ∧
    readWidth? "65537".toList = none := by
  decide

end Word

end Dofile
