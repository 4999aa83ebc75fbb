import Dofile.Proofs.Account

/-!
# Readings

A reading says which items lead from one place of a text to another. It is put
together the way a rule of the grammar is, from single steps, sequences, choices,
repetitions and nodes, and `Computes` ties the two: a rule emits the items of its
reading. Whatever the steps are, they give an account of the text between the two
places, so every reading comes with one.
-/

namespace Dofile

structure Reading where
  leads : Lexer → List Item → Lexer → Prop
  account : ∀ ⦃l items l'⦄, leads l items l' → Account l items l'

namespace Reading

/-! ## Steps -/

def take (mode : Mode) : Reading where
  leads l items l' := l.kind ≠ .eof ∧ items = [l.item] ∧ l' = l.next mode
  account := by
    intro l _ _ h
    obtain ⟨h, rfl, rfl⟩ := h
    exact .take h mode

/-- Takes the word ahead under another kind. -/
def word (kind : Kind) (mode : Mode) (hk : kind ∈ Kind.wordLabels := by decide) : Reading where
  leads l items l' := l.IsWord ∧ items = [.token l kind] ∧ l' = l.next mode
  account := by
    intro l _ _ h
    obtain ⟨h, rfl, rfl⟩ := h
    exact .word h hk mode

def relex (mode : Mode) : Reading where
  leads l items l' := items = [] ∧ l' = l.relex mode
  account := by
    intro l _ _ h
    obtain ⟨rfl, rfl⟩ := h
    exact .relex l mode

def report (problem : Problem) : Reading where
  leads l items l' := items = [.found ⟨problem, l.ahead.span⟩] ∧ l' = l
  account := by
    intro _ _ l h
    obtain ⟨rfl, rfl⟩ := h
    exact .found l (Nat.le_add_right ..)

def skip : Reading where
  leads l items l' := items = [] ∧ l' = l
  account := by
    intro _ _ l h
    obtain ⟨rfl, rfl⟩ := h
    exact .skip l

/-! ## Combinations -/

def seq (R S : Reading) : Reading where
  leads l items l' := ∃ is m js, R.leads l is m ∧ S.leads m js l' ∧ items = is ++ js
  account := by
    intro _ _ _ h
    obtain ⟨is, m, js, h, h', rfl⟩ := h
    exact (R.account h).append (S.account h')

def when (c : Lexer → Prop) (R : Reading) : Reading where
  leads l items l' := c l ∧ R.leads l items l'
  account _ _ _ h := R.account h.2

def upTo (R : Reading) (c : Lexer → Prop) : Reading where
  leads l items l' := R.leads l items l' ∧ c l'
  account _ _ _ h := R.account h.1

def or (R S : Reading) : Reading where
  leads l items l' := R.leads l items l' ∨ S.leads l items l'
  account _ _ _ h := h.elim (R.account ·) (S.account ·)

def either (c : Lexer → Prop) (R S : Reading) : Reading := (R.when c).or (S.when fun l => ¬ c l)

def eat (kind : Kind) (mode : Mode) : Reading := either (·.kind = kind) (take mode) skip

def none : Reading := ⟨fun _ _ _ => False, fun _ _ _ => False.elim⟩

def any (R : Nat → Reading) : Reading where
  leads l items l' := ∃ n, (R n).leads l items l'
  account _ _ _ := fun ⟨n, h⟩ => (R n).account h

inductive Many (stops : Lexer → Prop) (leads : Lexer → List Item → Lexer → Prop) :
    Lexer → List Item → Lexer → Prop where
  | done {l : Lexer} (h : stops l) : Many stops leads l [] l
  | more {l m l' : Lexer} {is js : List Item} (h : ¬ stops l) (first : leads l is m)
    (rest : Many stops leads m js l') : Many stops leads l (is ++ js) l'

/-- A reading again and again, up to the first place where a condition holds. -/
def many (stops : Lexer → Prop) (R : Reading) : Reading where
  leads := Many stops R.leads
  account _ _ _ h := by
    induction h with
    | done => exact .skip _
    | more _ first _ ih => exact (R.account first).append ih

def node (kind : Kind) (R : Reading) (hk : kind.isNode = true := by decide) : Reading where
  leads l items l' := ∃ is, R.leads l is l' ∧ items = [.node kind is]
  account := by
    intro _ _ _ h
    obtain ⟨is, h, rfl⟩ := h
    exact .node hk (R.account h)

/-- A reading within a node that is then given up: a problem is reported where `span`
says, and the node is enclosed in a problem node. -/
def givenUp (kind : Kind) (problem : Problem) (span : Lexer → Lexer → Span) (R : Reading)
    (hk : kind.isNode = true := by decide) : Reading where
  leads l items l' := ∃ is, R.leads l is l' ∧ (span l l').start ≤ (span l l').stop ∧
    items = [.enclosed kind (is ++ [.found ⟨problem, span l l'⟩])]
  account := by
    intro _ _ l' h
    obtain ⟨is, h, hspan, rfl⟩ := h
    exact .enclosed hk ((R.account h).append (.found l' hspan))

/-! ## Progress -/

def Moves (R : Reading) : Prop :=
  ∀ ⦃l items l'⦄, R.leads l items l' → l'.rest.length < l.rest.length

theorem moves_take (mode : Mode) : (take mode).Moves := by
  intro l _ _ h
  obtain ⟨h, -, rfl⟩ := h
  exact Lexer.after_length_lt h

theorem moves_word (kind : Kind) (mode : Mode) (hk : kind ∈ Kind.wordLabels) : (word kind mode hk).Moves := by
  intro l _ _ h
  obtain ⟨h, -, rfl⟩ := h
  exact Lexer.after_length_lt h.ne_eof

section
variable {R S : Reading}

theorem Moves.seq (h : R.Moves) (S : Reading) : (R.seq S).Moves := by
  intro _ _ _ ⟨_, _, _, hR, hS, _⟩
  exact Nat.lt_of_le_of_lt (S.account hS).rest_le (h hR)

theorem Moves.after (h : S.Moves) (R : Reading) : (R.seq S).Moves := by
  intro _ _ _ ⟨_, _, _, hR, hS, _⟩
  exact Nat.lt_of_lt_of_le (h hS) (R.account hR).rest_le

theorem Moves.when (h : R.Moves) (c : Lexer → Prop) : (R.when c).Moves := fun _ _ _ hR => h hR.2

theorem Moves.upTo (h : R.Moves) (c : Lexer → Prop) : (R.upTo c).Moves := fun _ _ _ hR => h hR.1

theorem Moves.or (h : R.Moves) (h' : S.Moves) : (R.or S).Moves :=
  fun _ _ _ hRS => hRS.elim (h ·) (h' ·)

theorem Moves.either (h : R.Moves) (h' : S.Moves) (c : Lexer → Prop) : (either c R S).Moves :=
  Moves.or (h.when c) (h'.when _)

theorem moves_of_many {stops : Lexer → Prop} (h : R.Moves) {l l' : Lexer} {items : List Item}
    (hs : ¬ stops l) (hmany : (many stops R).leads l items l') : l'.rest.length < l.rest.length := by
  cases hmany with
  | done hd => exact absurd hd hs
  | more _ first rest => exact Nat.lt_of_le_of_lt ((many stops R).account rest).rest_le (h first)

theorem Moves.node (h : R.Moves) {kind : Kind} (hk : kind.isNode = true) : (node kind R hk).Moves := by
  intro _ _ _ ⟨_, hR, _⟩
  exact h hR

theorem Moves.givenUp (h : R.Moves) {kind : Kind} (problem : Problem) (span : Lexer → Lexer → Span)
    (hk : kind.isNode = true) : (givenUp kind problem span R hk).Moves := by
  intro _ _ _ ⟨_, hR, _⟩
  exact h hR

/-! ## Totality -/

def TotalOn (c : Lexer → Prop) (R : Reading) : Prop := ∀ l, c l → ∃ items l', R.leads l items l'

def Total (R : Reading) : Prop := ∀ l, ∃ items l', R.leads l items l'

theorem Total.on (h : R.Total) (c : Lexer → Prop) : R.TotalOn c := fun l _ => h l

theorem TotalOn.mono {c d : Lexer → Prop} (h : R.TotalOn c) (hd : ∀ l, d l → c l) : R.TotalOn d :=
  fun l hl => h l (hd l hl)

theorem total_skip : skip.Total := fun l => ⟨_, l, rfl, rfl⟩

theorem total_report (problem : Problem) : (report problem).Total := fun l => ⟨_, l, rfl, rfl⟩

theorem total_take (mode : Mode) : (take mode).TotalOn fun l => l.kind ≠ .eof :=
  fun l h => ⟨_, l.next mode, h, rfl, rfl⟩

theorem total_word (kind : Kind) (mode : Mode) (hk : kind ∈ Kind.wordLabels) :
    (word kind mode hk).TotalOn Lexer.IsWord :=
  fun l h => ⟨_, l.next mode, h, rfl, rfl⟩

theorem TotalOn.seq {c : Lexer → Prop} (h : R.TotalOn c) (h' : S.Total) : (R.seq S).TotalOn c := fun l hl => by
  obtain ⟨is, m, hR⟩ := h l hl
  obtain ⟨js, l', hS⟩ := h' m
  exact ⟨is ++ js, l', is, m, js, hR, hS, rfl⟩

theorem Total.seq (h : R.Total) (h' : S.Total) : (R.seq S).Total := fun l =>
  (h.on fun _ => True).seq h' l trivial

theorem TotalOn.node {c : Lexer → Prop} (h : R.TotalOn c) {kind : Kind} (hk : kind.isNode = true) :
    (node kind R hk).TotalOn c := fun l hl => by
  obtain ⟨items, l', hR⟩ := h l hl
  exact ⟨_, l', items, hR, rfl⟩

theorem Total.node (h : R.Total) {kind : Kind} (hk : kind.isNode = true) : (node kind R hk).Total := fun l =>
  (h.on fun _ => True).node hk l trivial

/-- A choice leads on where the reading chosen does. -/
theorem TotalOn.either {c d : Lexer → Prop} (h : R.TotalOn fun l => d l ∧ c l)
    (h' : S.TotalOn fun l => d l ∧ ¬ c l) : (either c R S).TotalOn d := fun l hl => by
  by_cases hc : c l
  · obtain ⟨items, l', hR⟩ := h l ⟨hl, hc⟩
    exact ⟨items, l', .inl ⟨hc, hR⟩⟩
  · obtain ⟨items, l', hS⟩ := h' l ⟨hl, hc⟩
    exact ⟨items, l', .inr ⟨hc, hS⟩⟩

theorem Total.either {c : Lexer → Prop} (h : R.TotalOn c) (h' : S.TotalOn fun l => ¬ c l) :
    (either c R S).Total := fun l =>
  TotalOn.either (d := fun _ => True) (h.mono fun _ h => h.2) (h'.mono fun _ h => h.2) l trivial

theorem stops_of_many {stops : Lexer → Prop} {l l' : Lexer} {items : List Item}
    (h : (many stops R).leads l items l') : stops l' := by
  induction h with
  | done h => exact h
  | more _ _ _ ih => exact ih

theorem total_eat {kind : Kind} (hk : kind ≠ .eof) (mode : Mode) : (eat kind mode).Total :=
  Total.either ((total_take mode).mono fun l (h : l.kind = kind) => h ▸ hk) (total_skip.on _)

/-- The second reading need only lead on from where the first one ends. -/
theorem TotalOn.seq_of {c d : Lexer → Prop} (h : R.TotalOn c)
    (hd : ∀ {l is m}, c l → R.leads l is m → d m) (h' : S.TotalOn d) : (R.seq S).TotalOn c := fun l hl => by
  obtain ⟨is, m, hR⟩ := h l hl
  obtain ⟨js, l', hS⟩ := h' m (hd hl hR)
  exact ⟨is ++ js, l', is, m, js, hR, hS, rfl⟩

theorem TotalOn.report_seq {c : Lexer → Prop} (h : S.TotalOn c) (problem : Problem) :
    ((report problem).seq S).TotalOn c := fun l hl => by
  obtain ⟨items, l', hS⟩ := h l hl
  exact ⟨_, l', _, l, items, ⟨rfl, rfl⟩, hS, rfl⟩

/-- A repetition comes to its end because every turn passes some text. -/
theorem totalOn_many {stops : Lexer → Prop} {bound : Nat}
    (h : R.TotalOn fun l => ¬ stops l ∧ l.rest.length < bound) (hm : R.Moves) :
    (many stops R).TotalOn fun l => l.rest.length < bound := fun l hl => by
  by_cases hs : stops l
  · exact ⟨[], l, .done hs⟩
  · obtain ⟨is, m, hR⟩ := h l ⟨hs, hl⟩
    have := hm hR
    obtain ⟨js, l', hmany⟩ := totalOn_many h hm m (by omega)
    exact ⟨is ++ js, l', .more hs hR hmany⟩
termination_by l => l.rest.length

theorem total_many {stops : Lexer → Prop} (h : R.TotalOn fun l => ¬ stops l) (hm : R.Moves) :
    (many stops R).Total := fun l =>
  totalOn_many (h.mono fun _ h => h.1) hm l (Nat.lt_succ_self _)

/-! ## Rules -/

def Computes (R : Reading) (rule : Run → Run) : Prop :=
  ∀ ⦃s : Run⦄ ⦃items l'⦄, R.leads s.lexer items l' → rule s = s.emit items l'

variable {rule rule' : Run → Run}

theorem computes_take (mode : Mode) : (take mode).Computes (·.takeIn mode) := by
  intro s _ _ h
  obtain ⟨h, rfl, rfl⟩ := h
  exact Run.takeIn_emit h mode

theorem computes_word (kind : Kind) (mode : Mode) (hk : kind ∈ Kind.wordLabels) :
    (word kind mode hk).Computes (·.takeAs kind mode) := by
  intro s _ _ h
  obtain ⟨h, rfl, rfl⟩ := h
  exact Run.takeAs_emit h.ne_eof kind mode

theorem computes_report (problem : Problem) : (report problem).Computes (·.report problem) := by
  intro s _ _ h
  obtain ⟨rfl, rfl⟩ := h
  exact s.report_emit problem

theorem computes_skip : skip.Computes id := by
  intro s _ _ h
  obtain ⟨rfl, rfl⟩ := h
  exact s.emit_nil.symm

theorem Computes.seq (h : R.Computes rule) (h' : S.Computes rule') :
    (R.seq S).Computes fun s => rule' (rule s) := by
  intro s _ l' h
  obtain ⟨is, m, js, hR, hS, rfl⟩ := h
  simp only [h hR]
  rw [h' (s := s.emit is m) hS, Run.emit_emit]

theorem Computes.when (h : R.Computes rule) (c : Lexer → Prop) : (R.when c).Computes rule :=
  fun _ _ _ hR => h hR.2

theorem Computes.upTo (h : R.Computes rule) (c : Lexer → Prop) : (R.upTo c).Computes rule :=
  fun _ _ _ hR => h hR.1

theorem Computes.either {c : Lexer → Prop} {condition : Run → Bool} (h : R.Computes rule)
    (h' : S.Computes rule') (hc : ∀ s, condition s = true ↔ c s.lexer) :
    (either c R S).Computes fun s => if condition s then rule s else rule' s := by
  intro s _ _ h
  obtain ⟨hcond, hR⟩ | ⟨hcond, hS⟩ := h
  · simp only [(hc s).mpr hcond, if_true]
    exact h hR
  · simp only [if_neg (fun ht => hcond ((hc s).mp ht))]
    exact h' hS

theorem computes_eat (kind : Kind) (mode : Mode) :
    (eat kind mode).Computes fun s => if s.isAt kind then s.takeIn mode else s :=
  (computes_take _).either computes_skip (Run.isAt_iff · _)

theorem Computes.node (h : R.Computes rule) {kind : Kind} (hk : kind.isNode = true) :
    (node kind R hk).Computes (·.node kind rule) := by
  intro s _ _ h
  obtain ⟨is, hR, rfl⟩ := h
  exact Run.node_emit (h hR) kind

theorem Computes.many {stops : Lexer → Prop} {condition : Run → Bool} (h : R.Computes rule) (hm : R.Moves)
    (hc : ∀ s, condition s = true ↔ ¬ stops s.lexer) :
    (many stops R).Computes (·.repeatWhile condition rule) := by
  -- what is left of the text covers every turn that is still to come
  have hfuel : ∀ {l items l'}, (Reading.many stops R).leads l items l' →
      ∀ (fuel : List Char) (s : Run), s.lexer = l → l.rest.length ≤ fuel.length →
        repeatWhile condition rule fuel s = s.emit items l' := by
    intro l items l' hmany
    induction hmany with
    | @done l hs =>
      intro fuel s e _
      subst e
      have hfalse : condition s = false :=
        Bool.eq_false_iff.mpr fun ht => (hc s).mp ht hs
      rw [repeatWhile_of_false hfalse]
      exact s.emit_nil.symm
    | @more l m l' is js hs first _ ih =>
      intro fuel s e hlen
      subst e
      have hlt := hm first
      cases fuel with
      | nil => simp only [List.length_nil] at hlen; omega
      | cons a fuel =>
        simp only [List.length_cons] at hlen
        rw [repeatWhile, if_pos ((hc s).mpr hs), h first, ih fuel (s.emit is m) rfl (by omega), Run.emit_emit]
  intro s items l' hmany
  exact hfuel hmany s.rest s rfl (Nat.le_refl _)

end

end Reading

end Dofile
