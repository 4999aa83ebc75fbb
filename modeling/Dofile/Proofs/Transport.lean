import Dofile.Proofs.OneLine
import Dofile.Proofs.Statement

/-!
# Transports

Two texts that differ in what no rule looks at are read alike. A transport carries
the lexers of one text over to those of another, and whatever a reading does between
two lexers it does between their images, with the items carried over as well. Two
things can stand in its way: a token that goes on where the first text ends, and the
end of the first text itself. Both are there only if some problem was found.
-/

namespace Dofile

open Grammar (prefixApplies atProgramSubcommand)
open Reading (AtOpenComment)

theorem Lexer.IsWord.not_acrossLines {l : Lexer} (h : l.IsWord) : l.kind ∉ Kind.acrossLines := by
  intro hk
  unfold IsWord at h
  simp only [Kind.acrossLines, List.mem_cons, List.not_mem_nil, or_false] at hk
  rcases hk with hk | hk | hk
  all_goals
    rw [hk] at h
    exact absurd h (by decide)

def Span.map (f : Nat → Nat) (s : Span) : Span := ⟨f s.start, f s.stop⟩

def Finding.map (f : Nat → Nat) (x : Finding) : Finding := ⟨x.problem, x.span.map f⟩

namespace Item

mutual

def map (f : Lexer → Lexer) (g : Nat → Nat) : Item → Item
  | .token l kind => .token (f l) kind
  | .found x => .found (x.map g)
  | .node kind items => .node kind (mapAll f g items)
  | .enclosed kind items => .enclosed kind (mapAll f g items)

def mapAll (f : Lexer → Lexer) (g : Nat → Nat) : List Item → List Item
  | [] => []
  | i :: is => i.map f g :: mapAll f g is

end

theorem mapAll_append (f : Lexer → Lexer) (g : Nat → Nat) (is js : List Item) :
    mapAll f g (is ++ js) = mapAll f g is ++ mapAll f g js := by
  induction is with
  | nil => simp [mapAll]
  | cons i is ih => simp [mapAll, ih]

end Item

structure Transport where
  map : Lexer → Lexer
  shift : Nat → Nat
  /-- The lexers that are carried over. -/
  Near : Lexer → Prop
  /-- Whether the token ahead goes on where the first text ends. -/
  Torn : Lexer → Prop
  /-- Whether nothing is left of the first text. -/
  Spent : Lexer → Prop
  /-- The problems that are found if a token is torn or the text ends too early. -/
  Bad : Problem → Prop
  shift_le : ∀ {a b}, a ≤ b → shift a ≤ shift b
  near_relex : ∀ {l}, Near l → ∀ mode, Near (l.relex mode)
  map_relex : ∀ l mode, map (l.relex mode) = (map l).relex mode
  kind_map : ∀ {l}, Near l → (map l).kind = l.kind
  start_map : ∀ {l}, Near l → (map l).ahead.start = shift l.ahead.start
  stop_map : ∀ {l}, Near l → ¬ Torn l → (map l).ahead.stop = shift l.ahead.stop
  isTerminated_map : ∀ {l}, Near l → ¬ Torn l → l.kind = .blockComment →
    Lexeme.isTerminatedBlockComment (map l).ahead.text = Lexeme.isTerminatedBlockComment l.ahead.text
  text_map : ∀ {l}, Near l → l.IsWord → (map l).ahead.text = l.ahead.text
  prefixApplies_map : ∀ {l}, Near l → l.IsWord → prefixApplies (map l).after = prefixApplies l.after
  atProgramSubcommand_map : ∀ {l}, Near l → l.IsWord →
    atProgramSubcommand (map l).after = atProgramSubcommand l.after
  map_next : ∀ {l}, Near l → ¬ Torn l → l.kind ≠ .eof → ∀ mode, map (l.next mode) = (map l).next mode
  near_next : ∀ {l}, Near l → ¬ Torn l → l.kind ≠ .eof → l.kind ≠ .newline → ∀ mode, Near (l.next mode)
  near_or_spent : ∀ {l}, Near l → l.kind = .newline → ∀ mode, Near (l.next mode) ∨ Spent (l.next mode)
  kind_of_spent : ∀ {l}, Spent l → l.kind = .eof
  torn_cases : ∀ {l}, Torn l →
    AtOpenComment l ∨ l.mode = .mataBrace ∧ l.kind = .mataContent ∧ ∀ mode, (l.next mode).kind = .eof
  bad_of_torn : ∀ {l}, Torn l → Bad .unterminatedBlockComment ∧ Bad .missingMataBrace
  bad_of_spent : ∀ {l}, Spent l → Bad .missingMataEnd ∧ Bad .missingProgramEnd

namespace Transport

open Reading

variable (K : Transport)

def mapAll (items : List Item) : List Item := Item.mapAll K.map K.shift items

def Clean (items : List Item) : Prop := ∀ x ∈ Item.findingsAll items, ¬ K.Bad x.problem

def Carried (R : Reading) (l : Lexer) (items : List Item) (l' : Lexer) : Prop :=
  R.leads (K.map l) (K.mapAll items) (K.map l') ∧ ∀ t ∈ Item.takenAll items, K.Near t.1 ∧ ¬ K.Torn t.1

/-- Whether a reading that starts where `c` holds is carried over and ends where `D` holds. -/
def Carries (c : Lexer → Prop) (R : Reading) (D : Lexer → Prop) : Prop :=
  ∀ ⦃l items l'⦄, R.leads l items l' → K.Clean items → K.Near l → c l → K.Carried R l items l' ∧ D l'

def Within (d : Lexer → Prop) (l : Lexer) : Prop := K.Near l ∧ d l

def Keeps (p : Lexer → Prop) : Prop := ∀ ⦃l⦄, K.Near l → (p (K.map l) ↔ p l)

theorem clean_append {is js : List Item} : K.Clean (is ++ js) ↔ K.Clean is ∧ K.Clean js := by
  unfold Clean
  rw [Item.findingsAll_append]
  exact List.forall_mem_append

theorem mapAll_append (is js : List Item) : K.mapAll (is ++ js) = K.mapAll is ++ K.mapAll js :=
  Item.mapAll_append ..

variable {K} {l m : Lexer}

/-! ## Conditions -/

theorem keeps_of_kind (p : Kind → Prop) : K.Keeps fun l => p l.kind := fun l hl => by
  show p (K.map l).kind ↔ p l.kind
  rw [K.kind_map hl]

theorem keeps_kind (k : Kind) : K.Keeps (·.kind = k) := keeps_of_kind (· = k)

theorem Keeps.not {p : Lexer → Prop} (h : K.Keeps p) : K.Keeps fun l => ¬ p l := fun _ hl => not_congr (h hl)

theorem Keeps.or {p q : Lexer → Prop} (h : K.Keeps p) (h' : K.Keeps q) : K.Keeps fun l => p l ∨ q l :=
  fun _ hl => or_congr (h hl) (h' hl)

theorem Keeps.and {p q : Lexer → Prop} (h : K.Keeps p) (h' : K.Keeps q) : K.Keeps fun l => p l ∧ q l :=
  fun _ hl => and_congr (h hl) (h' hl)

theorem keeps_endsLine : K.Keeps Lexer.EndsLine := (keeps_kind _).or (keeps_kind _)

theorem keeps_isWord : K.Keeps Lexer.IsWord := keeps_of_kind (Word.kinds.contains · = true)

theorem isWordOf_map (hl : K.Near l) (words : List String) : (K.map l).IsWordOf words ↔ l.IsWordOf words := by
  unfold Lexer.IsWordOf
  rw [keeps_isWord hl]
  exact and_congr_right fun hw => by rw [K.text_map hl hw]

theorem keeps_isWordOf (words : List String) : K.Keeps (·.IsWordOf words) := fun _ hl => isWordOf_map hl words

theorem keeps_atPrefix : K.Keeps AtPrefix := fun l hl => by
  unfold AtPrefix
  rw [isWordOf_map hl]
  exact and_congr_right fun hw => by rw [K.prefixApplies_map hl hw.1]

theorem keeps_atProgram : K.Keeps AtProgram := fun l hl => by
  unfold AtProgram
  rw [isWordOf_map hl]
  exact and_congr_right fun hw => by rw [K.atProgramSubcommand_map hl hw.1]

/-! ## Whole tokens -/

theorem not_torn_of_kinds (hb : l.kind ≠ .blockComment) (hc : l.kind ≠ .mataContent) : ¬ K.Torn l := by
  intro ht
  rcases K.torn_cases ht with ⟨hk, -⟩ | ⟨-, hk, -⟩
  · exact hb hk
  · exact hc hk

theorem not_torn_of_kind (h : l.kind ∉ Kind.acrossLines) : ¬ K.Torn l :=
  not_torn_of_kinds (fun hk => h (by rw [hk]; decide)) fun hk => h (by rw [hk]; decide)

theorem mode_of_blockComment (h : l.kind = .blockComment) : l.mode = .statement := by
  rcases l.kind_cases with hk | hk | hk
  · exact absurd (h.symm.trans hk) (by decide)
  · exact absurd (h.symm.trans hk) (by decide)
  · rw [h] at hk
    revert hk
    cases l.mode <;> decide

/-- Torn comments stand in statements, and torn content stands in braces. -/
theorem not_torn_of_sameIn {mode : Mode} (h : l.SameIn mode) (hs : mode ≠ .statement) (hb : mode ≠ .mataBrace) :
    ¬ K.Torn l := by
  intro ht
  rcases K.torn_cases ht with ⟨hk, -⟩ | ⟨hm, hk, -⟩
  · rcases h with hmode | heof
    · exact hs (hmode.symm.trans (mode_of_blockComment hk))
    · exact absurd (hk.symm.trans heof) (by decide)
  · rcases h with hmode | heof
    · exact hb (hmode.symm.trans hm)
    · exact absurd (hk.symm.trans heof) (by decide)

theorem atOpenComment_of_torn (ht : K.Torn l) (h : l.SameIn .statement) : AtOpenComment l := by
  rcases K.torn_cases ht with ho | ⟨hm, hk, -⟩
  · exact ho
  · rcases h with hmode | heof
    · exact absurd (hmode.symm.trans hm) (by decide)
    · exact absurd (hk.symm.trans heof) (by decide)

theorem not_torn_of_isWord (h : l.IsWord) : ¬ K.Torn l := not_torn_of_kind h.not_acrossLines

theorem not_torn_of_endsLine (h : l.EndsLine) : ¬ K.Torn l := by
  refine not_torn_of_kinds ?_ ?_
  all_goals
    rcases h with hk | hk
    all_goals
      rw [hk]
      decide

theorem atOpenComment_iff (hl : K.Near l) (ht : ¬ K.Torn l) : AtOpenComment (K.map l) ↔ AtOpenComment l := by
  unfold AtOpenComment
  rw [K.kind_map hl]
  exact and_congr_right fun hk => by rw [K.isTerminated_map hl ht hk]

theorem span_map (hl : K.Near l) (ht : ¬ K.Torn l) : (K.map l).ahead.span = l.ahead.span.map K.shift := by
  unfold Token.span Span.map
  rw [K.start_map hl, K.stop_map hl ht]

/-! ## Steps -/

theorem Carried.nil {R : Reading} (h : R.leads (K.map l) [] (K.map m)) : K.Carried R l [] m :=
  ⟨h, by simp [Item.takenAll]⟩

theorem Carried.token {R : Reading} {kind : Kind} (hl : K.Near l) (ht : ¬ K.Torn l)
    (h : R.leads (K.map l) [.token (K.map l) kind] (K.map m)) : K.Carried R l [.token l kind] m :=
  ⟨h, by simpa [Item.takenAll, Item.taken] using ⟨hl, ht⟩⟩

theorem carries_skip (c : Lexer → Prop) : K.Carries c skip (K.Within c) := by
  intro l items l' h _ hn hc
  obtain ⟨rfl, rfl⟩ := h
  exact ⟨.nil ⟨rfl, rfl⟩, hn, hc⟩

theorem carries_relex (c : Lexer → Prop) (mode : Mode) :
    K.Carries c (relex mode) (K.Within (Lexer.SameIn mode)) := by
  intro l items l' h _ hn _
  obtain ⟨rfl, rfl⟩ := h
  exact ⟨.nil ⟨rfl, K.map_relex l mode⟩, K.near_relex hn mode, .inl rfl⟩

theorem carries_report {c : Lexer → Prop} (problem : Problem) (hc : ∀ l, c l → ¬ K.Torn l) :
    K.Carries c (report problem) (K.Within c) := by
  intro l items l' h _ hn hl
  obtain ⟨rfl, rfl⟩ := h
  refine ⟨⟨⟨?_, rfl⟩, by simp [Item.takenAll, Item.taken]⟩, hn, hl⟩
  rw [span_map hn (hc _ hl)]
  rfl

theorem carried_take (hn : K.Near l) (ht : ¬ K.Torn l) (he : l.kind ≠ .eof) (mode : Mode) :
    K.Carried (take mode) l [l.item] (l.next mode) := by
  have hk := K.kind_map hn
  refine .token hn ht ⟨hk ▸ he, ?_, K.map_next hn ht he mode⟩
  rw [Lexer.item, hk]

theorem carries_take {c : Lexer → Prop} (mode : Mode) (hc : ∀ l, c l → ¬ K.Torn l ∧ l.kind ≠ .newline) :
    K.Carries c (take mode) (K.Within (Lexer.SameIn mode)) := by
  intro l items l' h _ hn hl
  obtain ⟨he, rfl, rfl⟩ := h
  obtain ⟨ht, hk⟩ := hc l hl
  exact ⟨carried_take hn ht he mode, K.near_next hn ht he hk mode, .inl rfl⟩

theorem carries_take_kind (kind : Kind) (mode : Mode) (hk : kind ∉ Kind.acrossLines) :
    K.Carries (·.kind = kind) (take mode) (K.Within (Lexer.SameIn mode)) := by
  apply carries_take mode; intro l hl
  have hl : l.kind = kind := hl
  rw [← hl] at hk
  exact ⟨not_torn_of_kind hk, fun hn => hk (by rw [hn]; decide)⟩

/-- Behind a token that may be a line break there may be nothing left. -/
theorem carries_take_any {c : Lexer → Prop} (mode : Mode) (hc : ∀ l, c l → ¬ K.Torn l) :
    K.Carries c (take mode) fun l => K.Within (Lexer.SameIn mode) l ∨ K.Spent l ∧ l.mode = mode := by
  intro l items l' h _ hn hl
  obtain ⟨he, rfl, rfl⟩ := h
  refine ⟨carried_take hn (hc l hl) he mode, ?_⟩
  by_cases hk : l.kind = .newline
  · exact (K.near_or_spent hn hk mode).imp (⟨·, .inl rfl⟩) (⟨·, rfl⟩)
  · exact .inl ⟨K.near_next hn (hc l hl) he hk mode, .inl rfl⟩

theorem carries_word (c : Lexer → Prop) (kind : Kind) (mode : Mode) (hk : kind ∈ Kind.wordLabels) :
    K.Carries c (word kind mode hk) (K.Within (Lexer.SameIn mode)) := by
  intro l items l' h _ hn _
  obtain ⟨hw, rfl, rfl⟩ := h
  have ht : ¬ K.Torn l := not_torn_of_isWord hw
  have hb : l.kind ≠ .newline := fun hb => hw.not_endsLine (.inl hb)
  refine ⟨.token hn ht ⟨(keeps_isWord hn).mpr hw, rfl, K.map_next hn ht hw.ne_eof mode⟩, ?_, .inl rfl⟩
  exact K.near_next hn ht hw.ne_eof hb mode

/-! ## Combinations -/

section
variable {R S : Reading} {c d p stops : Lexer → Prop} {D E : Lexer → Prop}

theorem Carries.of (h : K.Carries c R D) (hc : ∀ l, d l → c l) : K.Carries d R D :=
  fun l _ _ hR hclean hn hl => h hR hclean hn (hc l hl)

theorem Carries.to (h : K.Carries c R D) (hD : ∀ l, D l → E l) : K.Carries c R E := by
  intro l items l' hR hclean hn hl
  obtain ⟨hcarried, hl'⟩ := h hR hclean hn hl
  exact ⟨hcarried, hD l' hl'⟩

theorem Carries.within (h : K.Carries c R (K.Within d)) (hd : ∀ l, d l → p l) : K.Carries c R (K.Within p) :=
  h.to fun l hl => ⟨hl.1, hd l hl.2⟩

theorem Carries.seq (h : K.Carries c R (K.Within d)) (h' : K.Carries d S D) : K.Carries c (R.seq S) D := by
  intro l items l' hRS hclean hn hl
  obtain ⟨is, m, js, hR, hS, rfl⟩ := hRS
  obtain ⟨his, hjs⟩ := K.clean_append.mp hclean
  obtain ⟨⟨hR', htaken⟩, hm, hd⟩ := h hR his hn hl
  obtain ⟨⟨hS', htaken'⟩, hl'⟩ := h' hS hjs hm hd
  refine ⟨⟨⟨_, _, _, hR', hS', K.mapAll_append is js⟩, fun t ht => ?_⟩, hl'⟩
  rw [Item.takenAll_append, List.mem_append] at ht
  exact ht.elim (htaken t) (htaken' t)

/-- Where a reading leads is known from the reading itself. -/
theorem Carries.and (h : K.Carries c R (K.Within d)) (hp : ∀ {l is l'}, c l → R.leads l is l' → p l') :
    K.Carries c R (K.Within fun l => d l ∧ p l) := by
  intro l items l' hR hclean hn hl
  obtain ⟨hcarried, hn', hl'⟩ := h hR hclean hn hl
  exact ⟨hcarried, hn', hl', hp hl hR⟩

theorem Carries.when (h : K.Carries (fun l => c l ∧ p l) R D) (hp : K.Keeps p) : K.Carries c (R.when p) D := by
  intro l items l' hR hclean hn hl
  obtain ⟨hpl, hR⟩ := hR
  obtain ⟨⟨hR', htaken⟩, hl'⟩ := h hR hclean hn ⟨hl, hpl⟩
  exact ⟨⟨⟨(hp hn).mpr hpl, hR'⟩, htaken⟩, hl'⟩

theorem Carries.upTo (h : K.Carries c R (K.Within d)) (hp : K.Keeps p) :
    K.Carries c (R.upTo p) (K.Within fun l => d l ∧ p l) := by
  intro l items l' hR hclean hn hl
  obtain ⟨hR, hpl⟩ := hR
  obtain ⟨⟨hR', htaken⟩, hn', hl'⟩ := h hR hclean hn hl
  exact ⟨⟨⟨hR', (hp hn').mpr hpl⟩, htaken⟩, hn', hl', hpl⟩

theorem Carries.or (h : K.Carries c R D) (h' : K.Carries c S D) : K.Carries c (R.or S) D := by
  intro l items l' hRS hclean hn hl
  rcases hRS with hR | hS
  · obtain ⟨⟨hR', htaken⟩, hl'⟩ := h hR hclean hn hl
    exact ⟨⟨.inl hR', htaken⟩, hl'⟩
  · obtain ⟨⟨hS', htaken⟩, hl'⟩ := h' hS hclean hn hl
    exact ⟨⟨.inr hS', htaken⟩, hl'⟩

theorem Carries.either (h : K.Carries (fun l => c l ∧ p l) R D) (h' : K.Carries (fun l => c l ∧ ¬ p l) S D)
    (hp : K.Keeps p) : K.Carries c (either p R S) D := (h.when hp).or (h'.when hp.not)

theorem carries_eat (kind : Kind) (mode : Mode) (hk : kind ∉ Kind.acrossLines) :
    K.Carries (Lexer.SameIn mode) (eat kind mode) (K.Within (Lexer.SameIn mode)) :=
  ((carries_take_kind kind mode hk).of fun _ h => h.2).either ((carries_skip _).of fun _ h => h.1) (keeps_kind kind)

theorem Carries.any {R : Nat → Reading} (h : ∀ n, K.Carries c (R n) D) : K.Carries c (any R) D := by
  intro l items l' hR hclean hn hl
  obtain ⟨n, hR⟩ := hR
  obtain ⟨⟨hR', htaken⟩, hl'⟩ := h n hR hclean hn hl
  exact ⟨⟨⟨n, hR'⟩, htaken⟩, hl'⟩

theorem Carries.many (h : K.Carries (fun l => c l ∧ ¬ stops l) R (K.Within c)) (hs : K.Keeps stops) :
    K.Carries c (Reading.many stops R) (K.Within fun l => c l ∧ stops l) := by
  intro l items l' hmany hclean hn hl
  induction hmany with
  | done hd => exact ⟨.nil (.done ((hs hn).mpr hd)), hn, hl, hd⟩
  | @more l m l' is js hne first rest ih =>
    obtain ⟨his, hjs⟩ := K.clean_append.mp hclean
    obtain ⟨⟨hR', htaken⟩, hm, hc⟩ := h first his hn ⟨hl, hne⟩
    obtain ⟨⟨hmany', htaken'⟩, hl'⟩ := ih hjs hm hc
    refine ⟨⟨?_, fun t ht => ?_⟩, hl'⟩
    · rw [K.mapAll_append]
      exact .more (fun hd => hne ((hs hn).mp hd)) hR' hmany'
    · rw [Item.takenAll_append, List.mem_append] at ht
      exact ht.elim (htaken t) (htaken' t)

theorem Carries.node (h : K.Carries c R D) {kind : Kind} (hk : kind.isNode = true) :
    K.Carries c (node kind R hk) D := by
  intro l items l' hR hclean hn hl
  obtain ⟨is, hR, rfl⟩ := hR
  have his : K.Clean is := by simpa [Clean, Item.findingsAll, Item.findings] using hclean
  obtain ⟨⟨hR', htaken⟩, hl'⟩ := h hR his hn hl
  exact ⟨⟨⟨_, hR', rfl⟩, by simpa [Item.takenAll, Item.taken] using htaken⟩, hl'⟩

theorem Carries.givenUp {problem : Problem} {span : Lexer → Lexer → Span} {kind : Kind}
    (h : ¬ K.Bad problem → K.Carries c R (K.Within d))
    (hspan : ∀ {l l'}, K.Within c l → K.Within d l' → span (K.map l) (K.map l') = (span l l').map K.shift)
    (hk : kind.isNode = true) : K.Carries c (givenUp kind problem span R hk) (K.Within d) := by
  intro l items l' hR hclean hn hl
  obtain ⟨is, hR, hle, rfl⟩ := hR
  have hclean : K.Clean (is ++ [.found ⟨problem, span l l'⟩]) := by
    simpa [Clean, Item.findingsAll, Item.findings] using hclean
  obtain ⟨his, hfound⟩ := K.clean_append.mp hclean
  have hbad : ¬ K.Bad problem := by simpa [Clean, Item.findingsAll, Item.findings] using hfound
  obtain ⟨⟨hR', htaken⟩, hl'⟩ := h hbad hR his hn hl
  have hmap := hspan ⟨hn, hl⟩ hl'
  refine ⟨⟨⟨_, hR', ?_, ?_⟩, ?_⟩, hl'⟩
  · rw [hmap]
    exact K.shift_le hle
  · rw [hmap]
    simp [mapAll, Item.mapAll, Item.map, Item.mapAll_append, Finding.map]
  · simpa [Item.takenAll, Item.taken, Item.takenAll_append] using htaken

/-- The last part of a sequence decides where the sequence leads. -/
theorem Carries.seq_upTo (h : K.Carries c (R.seq (S.upTo p)) D) : K.Carries c ((R.seq S).upTo p) D := by
  intro l items l' hRS hclean hn hl
  obtain ⟨⟨is, m, js, hR, hS, hitems⟩, hp⟩ := hRS
  obtain ⟨⟨⟨is', m', js', hR', ⟨hS', hp'⟩, hitems'⟩, htaken⟩, hl'⟩ :=
    h ⟨is, m, js, hR, ⟨hS, hp⟩, hitems⟩ hclean hn hl
  exact ⟨⟨⟨⟨is', m', js', hR', hS', hitems'⟩, hp'⟩, htaken⟩, hl'⟩

/-- A choice before a sequence is a choice between two sequences. -/
theorem Carries.either_seq {R' : Reading} (h : K.Carries (fun l => c l ∧ p l) (R.seq S) D)
    (h' : K.Carries (fun l => c l ∧ ¬ p l) (R'.seq S) D) (hp : K.Keeps p) :
    K.Carries c ((Reading.either p R R').seq S) D := by
  intro l items l' hRS hclean hn hl
  obtain ⟨is, m, js, hR | hR, hS, hitems⟩ := hRS
  · obtain ⟨⟨⟨is', m', js', hR', hS', hitems'⟩, htaken⟩, hl'⟩ := h ⟨is, m, js, hR.2, hS, hitems⟩ hclean hn ⟨hl, hR.1⟩
    exact ⟨⟨⟨is', m', js', .inl ⟨(hp hn).mpr hR.1, hR'⟩, hS', hitems'⟩, htaken⟩, hl'⟩
  · obtain ⟨⟨⟨is', m', js', hR', hS', hitems'⟩, htaken⟩, hl'⟩ := h' ⟨is, m, js, hR.2, hS, hitems⟩ hclean hn ⟨hl, hR.1⟩
    exact ⟨⟨⟨is', m', js', .inr ⟨(hp.not hn).mpr hR.1, hR'⟩, hS', hitems'⟩, htaken⟩, hl'⟩

/-- A repetition that does not end with the text never comes to where nothing is left. -/
theorem Carries.many_upTo (h : K.Carries (fun l => c l ∧ ¬ stops l) R fun l => K.Within c l ∨ K.Spent l)
    (hs : K.Keeps stops) (hstop : ∀ l : Lexer, l.kind = .eof → stops l) :
    K.Carries c ((Reading.many stops R).upTo (·.kind ≠ .eof)) (K.Within fun l => (c l ∧ stops l) ∧ l.kind ≠ .eof) := by
  intro l items l' hmany hclean hn hl
  obtain ⟨hmany, he⟩ := hmany
  induction hmany with
  | done hd => exact ⟨.nil ⟨.done ((hs hn).mpr hd), ((keeps_kind .eof).not hn).mpr he⟩, hn, ⟨hl, hd⟩, he⟩
  | @more l m l' is js hne first rest ih =>
    obtain ⟨his, hjs⟩ := K.clean_append.mp hclean
    obtain ⟨⟨hR', htaken⟩, ⟨hm, hc⟩ | hspent⟩ := h first his hn ⟨hl, hne⟩
    · obtain ⟨⟨⟨hmany', he'⟩, htaken'⟩, hl'⟩ := ih hjs hm hc he
      refine ⟨⟨⟨?_, he'⟩, fun t ht => ?_⟩, hl'⟩
      · rw [K.mapAll_append]
        exact .more (fun hd => hne ((hs hn).mp hd)) hR' hmany'
      · rw [Item.takenAll_append, List.mem_append] at ht
        exact ht.elim (htaken t) (htaken' t)
      -- nothing is left here, so the repetition ends with the text
    · cases rest with
      | done => exact absurd (K.kind_of_spent hspent) he
      | more hne' => exact absurd (hstop m (K.kind_of_spent hspent)) hne'

end

end Transport

end Dofile
