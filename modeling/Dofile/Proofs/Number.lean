import Mathlib.Computability.Language
import Dofile.Proofs.Context
import Dofile.Proofs.Tiling

/-!
# Numbers and missing values

The number at the beginning of a text is the longest beginning that is written like one. `numbers`
says how numbers are written, without the scanner. A dot that begins no number is a missing value, with
the letter behind it if that stands alone.
-/

namespace Dofile

/-! ## Longest beginnings -/

structure Longest (L : Language Char) (text word : List Char) : Prop where
  mem : word ∈ L
  begins : word <+: text
  longest : ∀ w ∈ L, w <+: text → w.length ≤ word.length

namespace Longest

variable {L M : Language Char} {text word v : List Char}

/-- Two longest beginnings, one behind the other, are one if the second cannot begin any earlier. -/
theorem mul (h : Longest L text word) (h' : Longest M (text.drop word.length) v)
    (hapart : ∀ a ∈ L, ∀ b ∈ M, b ≠ [] → a ++ b <+: text → a = word) : Longest (L * M) text (word ++ v) where
  mem := Language.append_mem_mul h.mem h'.mem
  begins := Lexeme.append_prefix_of_drop h.begins h'.begins
  longest w hw hbegins := by
    obtain ⟨a, ha, b, hb, rfl⟩ := Language.mem_mul.mp hw
    rw [List.length_append, List.length_append]
    by_cases hnil : b = []
    · subst hnil
      have hle := h.longest a ha (by simpa using hbegins)
      rw [List.length_nil]
      omega
    · obtain rfl := hapart a ha b hb hnil hbegins
      obtain ⟨rest, rfl⟩ := h.begins
      rw [List.drop_left] at h'
      exact Nat.add_le_add_left (h'.longest b hb ((List.prefix_append_right_inj a).mp hbegins)) _

theorem cons (h : Longest L text word) (c : Char) : Longest ({[c]} * L) (c :: text) (c :: word) where
  mem := Language.mem_mul.mpr ⟨[c], rfl, word, h.mem, rfl⟩
  begins := List.cons_prefix_cons.mpr ⟨rfl, h.begins⟩
  longest w hw hbegins := by
    obtain ⟨_, rfl, b, hb, rfl⟩ := Language.mem_mul.mp hw
    exact Nat.succ_le_succ (h.longest b hb (List.cons_prefix_cons.mp hbegins).2)

/-- Where no word of another language begins a text, the choice between the two is none. -/
theorem or (h : Longest L text word) (hother : ∀ w ∈ M, w ≠ [] → ¬ w <+: text) : Longest (L + M) text word where
  mem := .inl h.mem
  begins := h.begins
  longest w hw hbegins := by
    rcases hw with hw | hw
    · exact h.longest w hw hbegins
    · by_cases hnil : w = []
      · subst hnil
        exact Nat.zero_le _
      · exact absurd hbegins (hother w hw hnil)

/-- The empty word may be chosen too. -/
theorem optional (h : Longest L text word) : Longest (1 + L) text word where
  mem := .inr h.mem
  begins := h.begins
  longest w hw hbegins := by
    rcases hw with hw | hw
    · rw [Language.mem_one w |>.mp hw]
      exact Nat.zero_le _
    · exact h.longest w hw hbegins

theorem nothing (h : ∀ w ∈ L, ¬ w <+: text) : Longest (1 + L) text [] where
  mem := .inl rfl
  begins := List.nil_prefix
  longest w hw hbegins := by
    rcases hw with hw | hw
    · rw [Language.mem_one w |>.mp hw]
    · exact absurd hbegins (h w hw)

end Longest

/-! ## How numbers are written -/

def digitRuns : Language Char := {w | w ≠ [] ∧ ∀ c ∈ w, c.isDigit = true}

def exponents : Language Char := ({['e'], ['E']} : Language Char) * ({[], ['+'], ['-']} * digitRuns)

def fractions : Language Char := {['.']} * (1 + digitRuns)

/-- Digits with a fraction or without one, or a dot and digits. Each may have an exponent. -/
def numbers : Language Char := digitRuns * ((1 + fractions) * (1 + exponents)) + {['.']} * (digitRuns * (1 + exponents))

theorem exponents_cases {w : List Char} (h : w ∈ exponents) : ∃ e s power, w = e :: (s ++ power) ∧
    (e = 'e' ∨ e = 'E') ∧ (s = [] ∨ s = ['+'] ∨ s = ['-']) ∧ power ∈ digitRuns := by
  obtain ⟨e, he, v, hv, rfl⟩ := Language.mem_mul.mp h
  obtain ⟨s, hs, power, hpower, rfl⟩ := Language.mem_mul.mp hv
  rcases he with rfl | rfl
  · exact ⟨'e', s, power, rfl, .inl rfl, hs, hpower⟩
  · exact ⟨'E', s, power, rfl, .inr rfl, hs, hpower⟩

theorem fractions_cases {w : List Char} (h : w ∈ fractions) : ∃ ds, w = '.' :: ds ∧ ∀ c ∈ ds, c.isDigit = true := by
  obtain ⟨_, rfl, ds, hds, rfl⟩ := Language.mem_mul.mp h
  refine ⟨ds, rfl, ?_⟩
  rcases hds with rfl | hds
  · exact nofun
  · exact hds.2

/-- What may follow the digits of a number begins with no digit. -/
theorem not_digit_behind {w : List Char} (h : w ∈ (1 + fractions) * (1 + exponents)) :
    ∀ c ∈ w.head?, c.isDigit = false := by
  obtain ⟨f, hf, x, hx, rfl⟩ := Language.mem_mul.mp h
  rcases hf with rfl | hf
  · rcases hx with rfl | hx
    · exact nofun
    · obtain ⟨e, s, power, rfl, he, -⟩ := exponents_cases hx
      rcases he with rfl | rfl <;> exact fun _ hc => Option.some.inj hc ▸ rfl
  · obtain ⟨ds, rfl, -⟩ := fractions_cases hf
    exact fun _ hc => Option.some.inj hc ▸ rfl

/-! ## What the scanner takes -/

namespace Lexeme

variable {text a b : List Char}

theorem digits_append (ha : ∀ c ∈ a, c.isDigit = true) (b : List Char) : digits (a ++ b) = a ++ digits b :=
  List.takeWhile_append_of_pos ha

theorem digits_eq_nil (h : ∀ c ∈ text.head?, c.isDigit = false) : digits text = [] := by
  cases text with
  | nil => rfl
  | cons c rest => exact List.takeWhile_cons_of_neg (Bool.eq_false_iff.mp (h c rfl))

theorem digits_mem (h : text.head?.any Char.isDigit = true) : digits text ∈ digitRuns := by
  cases text with
  | nil => cases h
  | cons c rest =>
    have hc : c.isDigit = true := h
    exact ⟨by simp [digits, hc], fun d hd => List.all_eq_true.mp List.all_takeWhile d hd⟩

/-- Digits that end before something else are all the digits there are. -/
theorem eq_digits (ha : ∀ c ∈ a, c.isDigit = true) (hb : ∀ c ∈ b.head?, c.isDigit = false) (hne : b ≠ [])
    (h : a ++ b <+: text) : a = digits text := by
  obtain ⟨rest, rfl⟩ := h
  obtain ⟨c, b, rfl⟩ := List.exists_cons_of_ne_nil hne
  have hnone : digits (c :: b ++ rest) = [] := digits_eq_nil hb
  rw [List.append_assoc, digits_append ha, hnone, List.append_nil]

theorem digits_le (ha : a ∈ digitRuns) (h : a <+: text) : a.length ≤ (digits text).length := by
  obtain ⟨rest, rfl⟩ := h
  rw [digits_append ha.2, List.length_append]
  exact Nat.le_add_right ..

theorem longest_digits (h : text.head?.any Char.isDigit = true) : Longest digitRuns text (digits text) where
  mem := digits_mem h
  begins := digits_isPrefix text
  longest _ hw hbegins := digits_le hw hbegins

theorem longest_digits_or_none (text : List Char) : Longest (1 + digitRuns) text (digits text) := by
  by_cases h : text.head?.any Char.isDigit = true
  · exact (longest_digits h).optional
  · have hhead : ∀ c ∈ text.head?, c.isDigit = false := by
      intro c hc
      rw [Option.mem_def.mp hc] at h
      exact Bool.eq_false_iff.mpr h
    have hnil := digits_eq_nil hhead
    rw [hnil]
    refine .nothing fun w hw hbegins => hw.1 (List.eq_nil_of_length_eq_zero ?_)
    have hle := digits_le hw hbegins
    rw [hnil] at hle
    exact Nat.le_zero.mp hle

/-- A sign or none before digits is the one that is found. -/
theorem eq_sign (ha : a = [] ∨ a = ['+'] ∨ a = ['-']) (hb : b ∈ digitRuns) (h : a ++ b <+: text) : a = sign text := by
  obtain ⟨rest, rfl⟩ := h
  rcases ha with rfl | rfl | rfl
  · obtain ⟨c, b, rfl⟩ := List.exists_cons_of_ne_nil hb.1
    have hc := hb.2 c (by simp)
    rw [List.nil_append, List.cons_append, sign.eq_def]
    split
    · rename_i heq
      obtain ⟨rfl, -⟩ := List.cons.inj heq
      cases hc
    · rename_i heq
      obtain ⟨rfl, -⟩ := List.cons.inj heq
      cases hc
    · rfl
  · rfl
  · rfl

theorem sign_mem (text : List Char) : sign text ∈ ({[], ['+'], ['-']} : Language Char) := by
  fun_cases sign text with
  | case1 => exact .inr (.inl rfl)
  | case2 => exact .inr (.inr rfl)
  | case3 => exact .inl rfl

theorem exponent_mem (text : List Char) : exponent text ∈ 1 + exponents := by
  fun_cases exponent text with
  | case1 => exact .inl rfl
  | case2 e rest power h =>
    simp only [Bool.and_eq_true, Bool.or_eq_true, beq_iff_eq, Bool.not_eq_true', List.isEmpty_eq_false_iff] at h
    obtain ⟨he, hpower⟩ := h
    have hletter : [e] ∈ ({['e'], ['E']} : Language Char) := he.imp (congrArg ([·])) (congrArg ([·]))
    have hdigits : power ∈ digitRuns := ⟨hpower, fun c hc => List.all_eq_true.mp List.all_takeWhile c hc⟩
    have hbehind := Language.append_mem_mul (sign_mem rest) hdigits
    exact .inr (Language.mem_mul.mpr ⟨[e], hletter, _, hbehind, rfl⟩)
  | case3 => exact .inl rfl

theorem exponent_le (ha : a ∈ exponents) (h : a <+: text) : a.length ≤ (exponent text).length := by
  obtain ⟨e, s, power, rfl, he, hs, hpower⟩ := exponents_cases ha
  obtain ⟨rest, rfl⟩ : ∃ rest, text = e :: rest := by
    obtain ⟨more, rfl⟩ := h
    exact ⟨_, rfl⟩
  have hbehind := (List.cons_prefix_cons.mp h).2
  obtain rfl := eq_sign hs hpower hbehind
  have hle : power.length ≤ (digits (rest.drop (sign rest).length)).length := by
    refine digits_le hpower ?_
    obtain ⟨more, hmore⟩ := hbehind
    have hdrop := congrArg (List.drop (sign rest).length) hmore
    rw [List.append_assoc, List.drop_left] at hdrop
    exact ⟨more, hdrop⟩
  have hne : digits (rest.drop (sign rest).length) ≠ [] := by
    intro hnil
    rw [hnil] at hle
    exact hpower.1 (List.eq_nil_of_length_eq_zero (Nat.le_zero.mp hle))
  have hfound : exponent (e :: rest) = e :: sign rest ++ digits (rest.drop (sign rest).length) := by
    rw [exponent, if_pos]
    simpa [hne] using he
  rw [hfound, List.length_cons, List.length_append, List.cons_append, List.length_cons, List.length_append]
  omega

theorem longest_exponent (text : List Char) : Longest (1 + exponents) text (exponent text) where
  mem := exponent_mem text
  begins := exponent_isPrefix text
  longest w hw hbegins := by
    rcases hw with rfl | hw
    · exact Nat.zero_le _
    · exact exponent_le hw hbegins

def fraction : List Char → List Char
  | '.' :: rest => '.' :: digits rest
  | _ => []

theorem fraction_of_ne {c : Char} (hc : c ≠ '.') (rest : List Char) : fraction (c :: rest) = [] := by
  rw [fraction.eq_def]
  split
  · rename_i heq
    exact absurd (List.cons.inj heq).1 hc
  · rfl

theorem longest_fraction (text : List Char) : Longest (1 + fractions) text (fraction text) := by
  match text with
  | [] =>
    refine .nothing fun w hw hbegins => ?_
    obtain ⟨ds, rfl, -⟩ := fractions_cases hw
    cases List.prefix_nil.mp hbegins
  | c :: rest =>
    by_cases hc : c = '.'
    · subst hc
      exact ((longest_digits_or_none rest).cons '.').optional
    · rw [fraction_of_ne hc]
      refine .nothing fun w hw hbegins => hc ?_
      obtain ⟨ds, rfl, -⟩ := fractions_cases hw
      exact (List.cons_prefix_cons.mp hbegins).1.symm

/-- An exponent begins where the fraction ends. -/
theorem eq_fraction (ha : a ∈ 1 + fractions) (hb : b ∈ 1 + exponents) (hne : b ≠ []) (h : a ++ b <+: text) :
    a = fraction text := by
  have hbehind := not_digit_behind (Language.mem_mul.mpr ⟨[], .inl rfl, b, hb, rfl⟩)
  rcases ha with rfl | ha
  · obtain ⟨e, s, power, rfl, he, -⟩ := exponents_cases (hb.resolve_left hne)
    obtain ⟨rest, rfl⟩ := h
    exact (fraction_of_ne (by rintro rfl; revert he; decide) _).symm
  · obtain ⟨ds, rfl, hds⟩ := fractions_cases ha
    obtain ⟨rest, rfl⟩ := h
    exact congrArg ('.' :: ·) (eq_digits hds hbehind hne ⟨rest, rfl⟩)

theorem number_eq (text : List Char) : number text = digits text ++
    (fraction (text.drop (digits text).length) ++
      exponent ((text.drop (digits text).length).drop (fraction (text.drop (digits text).length)).length)) := by
  rw [number]
  split
  · rename_i heq
    rw [heq, List.append_assoc]
    rfl
  · rename_i hne
    cases hrest : text.drop (digits text).length with
    | nil => rfl
    | cons c rest =>
      rw [fraction_of_ne fun hc => hne rest (hc ▸ hrest)]
      rfl

theorem longest_number (h : text.head?.any Char.isDigit = true) : Longest numbers text (number text) := by
  rw [number_eq]
  refine Longest.or (.mul (longest_digits h) (.mul (longest_fraction _) (longest_exponent _) ?_) ?_) ?_
  · exact fun a ha b hb => eq_fraction ha hb
  · exact fun a ha b hb => eq_digits ha.2 (not_digit_behind hb)
  · intro w hw _ hbegins
    obtain ⟨_, rfl, b, -, rfl⟩ := Language.mem_mul.mp hw
    obtain ⟨rest, rfl⟩ := hbegins
    cases h

theorem longest_dotted (h : text.head?.any Char.isDigit = true) :
    Longest numbers ('.' :: text) ('.' :: (digits text ++ exponent (text.drop (digits text).length))) := by
  rw [numbers, add_comm]
  refine Longest.or (.cons (.mul (longest_digits h) (longest_exponent _) ?_) '.') ?_
  · intro a ha b hb
    exact eq_digits ha.2 (not_digit_behind (Language.mem_mul.mpr ⟨[], .inl rfl, b, hb, rfl⟩))
  · intro w hw _ hbegins
    obtain ⟨a, ha, b, -, rfl⟩ := Language.mem_mul.mp hw
    obtain ⟨c, a, rfl⟩ := List.exists_cons_of_ne_nil ha.1
    obtain rfl := (List.cons_prefix_cons.mp hbegins).1
    cases ha.2 '.' (by simp)

theorem statement_of_digit {c : Char} (hc : c.isDigit = true) (fresh : Bool) (rest : List Char) :
    statement fresh (c :: rest) = ⟨.number, number (c :: rest)⟩ := by
  have hne : ∀ d, d.isDigit = false → c ≠ d := by
    rintro d hd rfl
    rw [hd] at hc
    cases hc
  have hbreak : isLineBreak c = false := by simp [isLineBreak, hne '\n' rfl, hne '\r' rfl]
  rw [statement_cons (hne '/' rfl) (hne '`' rfl)]
  simp [statementFrom, hbreak, hc, hne '*' rfl, hne '"' rfl, hne '`' rfl, hne '$' rfl]

end Lexeme

/-! ## The tokens of statements -/

def BeginsNumber (text : List Char) : Prop :=
  ∃ c rest, (text = c :: rest ∨ text = '.' :: c :: rest) ∧ c.isDigit = true

def LoneLetter (c : Char) (text : List Char) : Prop :=
  ∃ rest, text = c :: rest ∧ c.isLower = true ∧ ∀ d ∈ rest.head?, ¬ (d.isAlphanum = true ∨ d = '_')

namespace Lexeme

theorem longest_of_beginsNumber {text : List Char} (h : BeginsNumber text) (fresh : Bool) :
    (statement fresh text).kind = .number ∧ Longest numbers text (statement fresh text).text := by
  obtain ⟨c, rest, rfl | rfl, hc⟩ := h
  · rw [statement_of_digit hc]
    exact ⟨rfl, longest_number hc⟩
  · have hdot : statement fresh ('.' :: c :: rest) =
        ⟨.number, '.' :: (digits (c :: rest) ++ exponent ((c :: rest).drop (digits (c :: rest)).length))⟩ :=
      if_pos hc
    rw [hdot]
    exact ⟨rfl, longest_dotted hc⟩

theorem missingValue_of_dot {more : List Char} (h : ¬ BeginsNumber ('.' :: more)) (fresh : Bool) :
    (statement fresh ('.' :: more)).kind = .missingValue ∧
      (∀ c, LoneLetter c more → (statement fresh ('.' :: more)).text = ['.', c]) ∧
      ((∀ c, ¬ LoneLetter c more) → (statement fresh ('.' :: more)).text = ['.']) := by
  have hstatement : statement fresh ('.' :: more) = dot more := rfl
  rw [hstatement]
  cases more with
  | nil =>
    refine ⟨rfl, fun c hc => ?_, fun _ => rfl⟩
    obtain ⟨_, hcons, -⟩ := hc
    cases hcons
  | cons c rest =>
    have hc : ¬ c.isDigit = true := fun hc => h ⟨c, rest, .inr rfl, hc⟩
    have hlone : LoneLetter c (c :: rest) ↔ (c.isLower && !rest.head?.any isWordPart) = true := by
      cases rest <;> simp [LoneLetter, isWordPart]
    rw [dot, if_neg hc]
    split
    · rename_i hletter
      refine ⟨rfl, fun d hd => ?_, fun hnone => absurd (hlone.mpr hletter) (hnone c)⟩
      obtain ⟨_, hcons, -⟩ := hd
      cases hcons
      rfl
    · rename_i hletter
      refine ⟨rfl, fun d hd => absurd (hlone.mp ?_) hletter, fun _ => rfl⟩
      obtain ⟨_, hcons, -⟩ := id hd
      cases hcons
      exact hd

end Lexeme

namespace Lexer

/-- Wherever a lexer has got to, the token of statement text that begins with a digit, or with a dot and a
digit, is the longest number there. Any other that begins with a dot is a missing value. -/
theorem longest_number_or_missingValue (text : List Char) (steps : List Step) :
    let t := ((run steps (ofText text)).2.relex .statement).ahead
    ∃ before rest, cutBytes t.start text = some (before, rest) ∧ t.text <+: rest ∧
      (BeginsNumber rest → t.kind = .number ∧ Longest numbers rest t.text) ∧
      ∀ more, rest = '.' :: more → ¬ BeginsNumber rest → t.kind = .missingValue ∧
        (∀ c, LoneLetter c more → t.text = ['.', c]) ∧ ((∀ c, ¬ LoneLetter c more) → t.text = ['.']) := by
  have hstands : ((run steps (ofText text)).2.relex .statement).Stands text :=
    (run_stands steps (stands_ofText text)).1.relex .statement
  generalize hl : (run steps (ofText text)).2.relex .statement = l at hstands ⊢
  have hmode : l.mode = .statement := by rw [← hl, relex_mode]
  obtain ⟨before, hcut, -⟩ := hstands.cut_body
  have hlexeme : l.mode.lexeme l.fresh l.body = Lexeme.statement l.fresh l.body := by rw [hmode]; rfl
  refine ⟨before, l.body, hcut, l.text_prefix_body, ?_, ?_⟩
  · intro h
    rw [l.ahead_eq, hlexeme]
    exact Lexeme.longest_of_beginsNumber h l.fresh
  · intro more hmore h
    rw [l.ahead_eq, hlexeme, hmore]
    exact Lexeme.missingValue_of_dot (hmore ▸ h) l.fresh

/-- An exponent without digits is none, and a dot ends before a second one. -/
example : (tokens .statement "1e+ 1..5 .ab .a".toList).map (fun t => (t.kind, String.ofList t.text)) =
    [(.number, "1"), (.ident, "e"), (.operator, "+"), (.number, "1."), (.number, ".5"), (.missingValue, "."),
      (.ident, "ab"), (.missingValue, ".a"), (.eof, "")] := by
  decide

end Lexer

end Dofile
