import Dofile.Proofs.Discipline

/-!
# Derivations

A derivation is an account that knows the rules: which tokens stand where, which nodes hold
which others, and which finding belongs to which problem node. Strings and macro references
appear in it with their delimiters, closed or not, and their content is derived in turn.
-/

namespace Dofile

open Reading (AtOpenComment)

/-- A string or a macro reference that goes on to a closer. -/
inductive Construct where
  | doubleString
  | nested (family : Family) (depth : Nat)

namespace Construct

def kind : Construct → Kind
  | doubleString => .doubleString
  | nested family depth => family.kindAt depth

def opener : Construct → Kind
  | doubleString => .doubleQuote
  | nested family _ => family.opener

def closer : Construct → Kind
  | doubleString => .doubleQuote
  | nested family _ => family.closer

def mode : Construct → Mode
  | doubleString => .doubleString
  | nested family _ => family.mode

def problem : Construct → Problem
  | doubleString => .unterminatedString
  | nested family _ => family.problem

def tokens : Construct → List Kind
  | doubleString => [.escapedQuote, .stringEscape, .stringText]
  | nested .compoundString _ => [.compoundText]
  | nested .localMacro _ => [.ident, .number, .macroText]

end Construct

def Kind.lineOpeners : List Kind := [.eof, .unknown, .doubleQuote, .compoundOpen, .backtick, .dollar]

/-- Where tokens stand: in statements, or within a construct. -/
inductive Setting where
  | line
  | within (q : Construct)

namespace Setting

def mode : Setting → Mode
  | line => .statement
  | within q => q.mode

def Opens : Setting → Construct → Prop
  | line, .doubleString => True
  | line, .nested _ depth => depth = 1
  | within .doubleString, _ => False
  | within (.nested _ _), .doubleString => True
  | within (.nested .compoundString outer), .nested .compoundString depth => depth = outer + 1
  | within (.nested .localMacro _), .nested .compoundString _ => False
  | within (.nested family outer), .nested .localMacro depth => depth = family.innerMacroDepth outer

def Takes : Setting → Lexer → Prop
  | line, l => l.kind ∉ Kind.lineOpeners ∧ ¬ AtOpenComment l
  | within q, l => l.kind ∈ q.tokens

def Keeps : Setting → Mode → Prop
  | line, _ => True
  | within q, mode => mode = q.mode

end Setting

namespace Problem

/-- The problems of names that are missing, which are found without a problem node. -/
def missingNames : List Problem :=
  [.expectedProgramName, .expectedMacroName, .expectedSomeName, .expectedGlobalMacroName]

def statementNames : List Problem := [.expectedProgramName, .expectedMacroName, .expectedSomeName]

theorem mem_missingNames {p : Problem} (h : p ∈ statementNames) : p ∈ missingNames :=
  (show ∀ p ∈ statementNames, p ∈ missingNames by decide) p h

def ofLine : List Problem := [.strayEnd, .expectedEndOfLine, .expectedCommandName]

end Problem

def Kind.lineNodes : List Kind :=
  [.name, .commandPrefix, .comment, .command, .macroDefinition, .blockClose, .programDefinition, .mataBlock]

/-- The blocks that can be without their ends, each with what is found then. -/
def Problem.openBlocks : List (Kind × Problem) :=
  [(.programDefinition, .missingProgramEnd), (.mataBlock, .missingMataEnd), (.mataBlock, .missingMataBrace)]

def Item.StartWith (l : Lexer) (items : List Item) : Prop := ∃ kind is, items = .token l kind :: is

def Item.AreComment (l : Lexer) (items : List Item) : Prop :=
  items = [l.item] ∨ l.kind = .blockComment ∧
    items = [.node .error [.found ⟨.unterminatedBlockComment, l.ahead.span⟩, l.item]]

inductive Derivation : Setting → Lexer → List Item → Lexer → Prop where
  | nil (outer : Setting) (l : Lexer) : Derivation outer l [] l
  | append {outer : Setting} {l m l' : Lexer} {is js : List Item} (h : Derivation outer l is m)
    (h' : Derivation outer m js l') : Derivation outer l (is ++ js) l'
  | token {outer : Setting} {l : Lexer} (h : outer.Takes l) {mode : Mode} (hmode : outer.Keeps mode) :
    Derivation outer l [l.item] (l.next mode)
  | word {l : Lexer} (h : l.IsWord) {kind : Kind} (hk : kind ∈ Kind.wordLabels) (mode : Mode) :
    Derivation .line l [.token l kind] (l.next mode)
  | missingName (l : Lexer) {problem : Problem} (hp : problem ∈ Problem.statementNames)
    (hmode : l.mode = .statement) : Derivation .line l [.found ⟨problem, l.ahead.span⟩] l
  | node {l l' : Lexer} {is : List Item} {kind : Kind} (hk : kind ∈ Kind.lineNodes)
    (h : Derivation .line l is l') (hmoves : l'.rest.length < l.rest.length)
    (hcomment : kind = .comment → l.kind.isComment = true ∧ Item.AreComment l is) :
    Derivation .line l [.node kind is] l'
  | problem {l l' : Lexer} {is : List Item} {problem : Problem} (hp : problem ∈ Problem.ofLine)
    (h : Derivation .line l is l') (hmoves : l'.rest.length < l.rest.length) :
    Derivation .line l [.node .error (.found ⟨problem, l.ahead.span⟩ :: is)] l'
  | unknown {l : Lexer} (h : l.kind = .unknown) :
    Derivation .line l [.node .error [.found ⟨.unexpectedCharacter, l.ahead.span⟩, l.item]]
    (l.next .statement)
  | openComment {l : Lexer} (h : AtOpenComment l) :
    Derivation .line l [.node .error [.found ⟨.unterminatedBlockComment, l.ahead.span⟩, l.item]]
    (l.next .statement)
  | openBlock {l m l' : Lexer} {is : List Item} {kind : Kind} {problem : Problem}
    (hk : (kind, problem) ∈ Problem.openBlocks) (h : Derivation .line l is m)
    (hmoves : m.rest.length < l.rest.length) (hl' : l' = m ∨ l' = m.relex .statement)
    (hstart : Item.StartWith l is) :
    Derivation .line l [.enclosed kind (is ++ [.found ⟨problem, l.ahead.span⟩])] l'
  | plainMacro {outer : Setting} {l m : Lexer} (hl : l.kind = .dollar) (hm : m = l.next .globalMacro)
    (hname : m.kind = .ident) : Derivation outer l [.node .globalMacro [l.item, m.item]] (m.next outer.mode)
  | bracedMacro {outer : Setting} {l b m : Lexer} {is : List Item} (hl : l.kind = .dollar)
    (hb : b = l.next .globalMacro) (hbrace : b.kind = .leftBrace)
    (hname : Reading.bracedName.leads (b.next .globalMacro) is m) (hm : m.kind = .rightBrace) :
    Derivation outer l [.node .globalMacro (l.item :: b.item :: is ++ [m.item])] (m.next outer.mode)
  | openMacro {outer : Setting} {l b m : Lexer} {is : List Item} (hl : l.kind = .dollar)
    (hb : b = l.next .globalMacro) (hbrace : b.kind = .leftBrace)
    (hname : Reading.bracedName.leads (b.next .globalMacro) is m) (hm : m.kind ≠ .rightBrace) :
    Derivation outer l [.enclosed .globalMacro (l.item :: b.item :: is ++
      [.found ⟨.unterminatedGlobalMacro, ⟨l.ahead.start, m.ahead.start⟩⟩])] (m.relex outer.mode)
  | closed {outer : Setting} {q : Construct} {l m : Lexer} {is : List Item} (hq : outer.Opens q)
    (hl : l.kind = q.opener) (h : Derivation (.within q) (l.next q.mode) is m) (hm : m.kind = q.closer) :
    Derivation outer l [.node q.kind (l.item :: is ++ [m.item])] (m.next outer.mode)
  | unclosed {outer : Setting} {q : Construct} {l m : Lexer} {is : List Item} (hq : outer.Opens q)
    (hl : l.kind = q.opener) (h : Derivation (.within q) (l.next q.mode) is m) (hm : m.EndsLine) :
    Derivation outer l [.enclosed q.kind (l.item :: is ++ [.found ⟨q.problem, l.ahead.span⟩])]
      (m.relex outer.mode)

namespace Kind

theorem isNode_of_mem_lineNodes {k : Kind} (h : k ∈ lineNodes) : k.isNode = true :=
  (show ∀ k ∈ lineNodes, k.isNode = true by decide) k h

theorem mem_lineNodes_of_openBlocks {k : Kind} {p : Problem} (h : (k, p) ∈ Problem.openBlocks) :
    k ∈ lineNodes ∧ k ≠ .comment :=
  (show ∀ block ∈ Problem.openBlocks, block.1 ∈ lineNodes ∧ block.1 ≠ .comment by decide) (k, p) h

theorem isNode_of_mem_openBlocks {k : Kind} {p : Problem} (h : (k, p) ∈ Problem.openBlocks) :
    k.isNode = true :=
  (show ∀ block ∈ Problem.openBlocks, block.1.isNode = true by decide) (k, p) h

end Kind

theorem Construct.isNode_kind (q : Construct) : q.kind.isNode = true := by
  cases q with
  | doubleString => rfl
  | nested family depth => exact family.isNode_kindAt depth

theorem Construct.opener_ne_eof (q : Construct) : q.opener ≠ .eof := by
  cases q with
  | doubleString => decide
  | nested family => exact Grammar.opener_ne_eof family

theorem Construct.closer_ne_eof (q : Construct) : q.closer ≠ .eof := by
  cases q with
  | doubleString => decide
  | nested family => exact Grammar.closer_ne_eof family

theorem Construct.ne_eof_of_mem_tokens {q : Construct} {k : Kind} (h : k ∈ q.tokens) : k ≠ .eof := by
  intro e
  subst e
  revert h
  rcases q with _ | ⟨family, _⟩
  · decide
  · cases family <;> simp [tokens]

theorem Setting.Takes.ne_eof {outer : Setting} {l : Lexer} (h : outer.Takes l) : l.kind ≠ .eof := by
  cases outer with
  | line =>
    intro he
    exact h.1 (by rw [he]; decide)
  | within q => exact Construct.ne_eof_of_mem_tokens h

theorem Setting.Takes.ne_unknown {outer : Setting} {l : Lexer} (h : outer.Takes l) : l.kind ≠ .unknown := by
  intro hu
  cases outer with
  | line => exact h.1 (by rw [hu]; decide)
  | within q =>
    have hmem : Kind.unknown ∈ q.tokens := hu ▸ h
    rcases q with _ | ⟨family, _⟩
    · revert hmem; decide
    · cases family <;> simp [Construct.tokens] at hmem

theorem Lexer.start_eq_offset {l : Lexer} (h : l.mode.skipsBlanks = false) : l.ahead.start = l.offset := by
  have hstart : l.ahead.start = l.offset + byteSize l.leading := rfl
  simp [hstart, Lexer.leading, h]

namespace Reading

section
variable {l b m : Lexer} {is : List Item} (hb : b = l.next .globalMacro)
  (hname : bracedName.leads (b.next .globalMacro) is m)
include hname

theorem mode_of_braces : m.mode = .globalMacro := by
  rcases hname with ⟨-, -, -, rfl⟩ | ⟨-, ⟨-, -, rfl⟩ | ⟨-, -, rfl⟩⟩ <;> rfl

include hb

theorem start_le_of_braces : l.ahead.start ≤ m.ahead.start := by
  subst hb
  exact Nat.le_trans (start_le_next_start l .globalMacro)
    (Nat.le_trans (start_le_next_start _ .globalMacro) (start_le_of_bracedName hname))

end

end Reading

namespace Derivation

open Reading

variable {outer : Setting} {l l' : Lexer} {items : List Item}

theorem account (h : Derivation outer l items l') : Account l items l' := by
  have hfound : ∀ (l : Lexer) (problem : Problem), Account l [.found ⟨problem, l.ahead.span⟩] l :=
    fun l _ => .found l (Nat.le_add_right ..)
  have hbraces : ∀ {l b : Lexer}, l.kind = .dollar → b = l.next .globalMacro → b.kind = .leftBrace →
      Account l [l.item, b.item] (b.next .globalMacro) := by
    intro l b hl hb hbrace
    subst hb
    exact (Account.take (by rw [hl]; decide) _).append (.take (by rw [hbrace]; decide) _)
  induction h with
  | nil outer l => exact .skip l
  | append _ _ ih ih' => exact ih.append ih'
  | token h => exact .take h.ne_eof _
  | word h hk mode => exact .word h hk mode
  | missingName l => exact hfound l _
  | node hk _ _ _ ih => exact .node (Kind.isNode_of_mem_lineNodes hk) ih
  | problem _ _ _ ih => exact .node Kind.isNode_error ((hfound _ _).append ih)
  | unknown h => exact .node Kind.isNode_error ((hfound _ _).append (.take (by rw [h]; decide) .statement))
  | openComment h =>
    exact .node Kind.isNode_error ((hfound _ _).append (.take (by rw [h.1]; decide) .statement))
  | @openBlock l m _ _ _ problem hk _ _ hl' _ ih =>
    have hblock := Account.enclosed (Kind.isNode_of_mem_openBlocks hk)
      (ih.append (.found m (f := ⟨problem, l.ahead.span⟩) (Nat.le_add_right ..)))
    rcases hl' with rfl | rfl
    · exact hblock
    · exact hblock.append (.relex m _)
  | plainMacro hl hm hname =>
    subst hm
    exact .node (by decide) ((Account.take (by rw [hl]; decide) _).append (.take (by rw [hname]; decide) _))
  | bracedMacro hl hb hbrace hname hm =>
    exact .node (by decide) (((hbraces hl hb hbrace).append (bracedName.account hname)).append
      (.take (by rw [hm]; decide) _))
  | @openMacro outer l b m _ hl hb hbrace hname hm =>
    have hspan := start_le_of_braces hb hname
    have hgiven := Account.enclosed (show Kind.globalMacro.isNode = true by decide)
      (((hbraces hl hb hbrace).append (bracedName.account hname)).append
        (.found m (f := ⟨.unterminatedGlobalMacro, ⟨l.ahead.start, m.ahead.start⟩⟩) hspan))
    exact hgiven.append (.relex m _)
  | @closed _ q _ _ _ hq hl _ hm ih =>
    have hcloser := q.closer_ne_eof
    exact .node q.isNode_kind (((Account.take (hl ▸ q.opener_ne_eof) q.mode).append ih).append
      (.take (hm ▸ hcloser) _))
  | @unclosed _ q l m _ hq hl _ hm ih =>
    have hgiven := Account.enclosed q.isNode_kind
      (((Account.take (hl ▸ q.opener_ne_eof) q.mode).append ih).append
        (.found m (f := ⟨q.problem, l.ahead.span⟩) (Nat.le_add_right ..)))
    exact hgiven.append (.relex m _)

theorem offset_le (h : Derivation outer l items l') : l.offset ≤ l'.offset := h.account.offset_le

/-- What a derivation takes begins with the token ahead. -/
theorem first (h : Derivation outer l items l') :
    Item.scriptsAll items = [] ∧ l' = l ∨
      ∃ s ss, Item.scriptsAll items = s :: ss ∧ s.lead = l.ahead.leading ∧ l.ahead.stop ≤ l'.offset := by
  have hstop : ∀ l : Lexer, l.offset ≤ l.ahead.stop := fun l =>
    Nat.le_trans (Nat.le_add_right ..) (Nat.le_add_right ..)
  -- only what takes nothing may leave the lexer where it is, and a node takes something
  induction h with
  | nil | missingName => exact .inl ⟨rfl, rfl⟩
  | append h h' ih ih' =>
    rw [Item.scriptsAll_append]
    rcases ih with ⟨hnone, rfl⟩ | ⟨s, ss, hs, hlead, hle⟩
    · rw [hnone]
      exact ih'
    · exact .inr ⟨s, ss ++ _, by rw [hs]; rfl, hlead, Nat.le_trans hle h'.offset_le⟩
  | token | word => exact .inr ⟨_, _, rfl, rfl, Nat.le_refl _⟩
  | unknown | openComment => exact .inr ⟨_, _, rfl, rfl, Nat.le_refl _⟩
  | node _ _ hmoves _ ih | problem _ _ hmoves ih =>
    rcases ih with ⟨-, rfl⟩ | ⟨s, ss, hs, hlead, hle⟩
    · exact absurd hmoves (Nat.lt_irrefl _)
    · refine .inr ⟨_, _, rfl, ?_, hle⟩
      simpa [Item.scriptsAll, Item.scripts, Script.lead, hs, Script.leadAll] using hlead
  | openBlock hk h hmoves hl' _ ih =>
    rcases ih with ⟨-, rfl⟩ | ⟨s, ss, hs, hlead, hle⟩
    · exact absurd hmoves (Nat.lt_irrefl _)
    · refine .inr ⟨_, _, rfl, ?_, by rcases hl' with rfl | rfl <;> exact hle⟩
      simpa [Script.lead, Item.scriptsAll_append, hs, Script.leadAll] using hlead
  | plainMacro hl hm hname =>
    subst hm
    exact .inr ⟨_, _, rfl, rfl, hstop (Lexer.next _ _)⟩
  | bracedMacro hl hb hbrace hname hm =>
    subst hb
    have hname := Nat.le_trans (hstop (Lexer.next _ .globalMacro)) (bracedName.account hname).offset_le
    exact .inr ⟨_, _, rfl, rfl, Nat.le_trans hname (hstop _)⟩
  | openMacro hl hb hbrace hname hm =>
    subst hb
    have hname := Nat.le_trans (hstop (Lexer.next _ .globalMacro)) (bracedName.account hname).offset_le
    exact .inr ⟨_, _, rfl, rfl, hname⟩
  | closed hq hl h hm ih => exact .inr ⟨_, _, rfl, rfl, Nat.le_trans h.offset_le (hstop _)⟩
  | unclosed hq hl h hm ih => exact .inr ⟨_, _, rfl, rfl, h.offset_le⟩

end Derivation

namespace Reading

def Derives (outer : Setting) (p : Lexer → Prop) (R : Reading) : Prop :=
  ∀ ⦃l items l'⦄, p l → R.leads l items l' → Derivation outer l items l'

section
variable {outer : Setting} {p p' c stops : Lexer → Prop} {R S : Reading}

theorem Derives.of (h : Derives outer p R) (hp : ∀ l, p' l → p l) : Derives outer p' R :=
  fun l _ _ hl hR => h (hp l hl) hR

theorem derives_skip (outer : Setting) (p : Lexer → Prop) : Derives outer p skip := by
  intro l _ _ _ h
  obtain ⟨rfl, rfl⟩ := h
  exact .nil outer _

theorem derives_take (hp : ∀ l, p l → l.kind ≠ .eof → outer.Takes l) {mode : Mode}
    (hmode : outer.Keeps mode) : Derives outer p (take mode) := by
  intro l _ _ hl h
  obtain ⟨he, rfl, rfl⟩ := h
  exact .token (hp l hl he) hmode

theorem derives_word {kind : Kind} (hk : kind ∈ Kind.wordLabels) (mode : Mode) (p : Lexer → Prop) :
    Derives .line p (word kind mode hk) := by
  intro l _ _ _ h
  obtain ⟨hw, rfl, rfl⟩ := h
  exact .word hw hk mode

theorem derives_report {problem : Problem} (hp : problem ∈ Problem.statementNames) :
    Derives .line (·.mode = .statement) (report problem) := by
  intro l _ _ hmode h
  obtain ⟨rfl, rfl⟩ := h
  exact .missingName _ hp hmode

theorem Derives.seq (h : Derives outer p R) (hp : ∀ {l is m}, p l → R.leads l is m → p' m)
    (h' : Derives outer p' S) :
    Derives outer p (R.seq S) := by
  intro l _ _ hl hRS
  obtain ⟨is, m, js, hR, hS, rfl⟩ := hRS
  exact .append (h hl hR) (h' (hp hl hR) hS)

theorem Derives.when (h : Derives outer (fun l => p l ∧ c l) R) : Derives outer p (R.when c) :=
  fun _ _ _ hl hR => h ⟨hl, hR.1⟩ hR.2

theorem Derives.upTo (h : Derives outer p R) (c : Lexer → Prop) : Derives outer p (R.upTo c) :=
  fun _ _ _ hl hR => h hl hR.1

theorem Derives.or (h : Derives outer p R) (h' : Derives outer p S) : Derives outer p (R.or S) :=
  fun _ _ _ hl hRS => hRS.elim (h hl ·) (h' hl ·)

theorem Derives.either (h : Derives outer (fun l => p l ∧ c l) R)
    (h' : Derives outer (fun l => p l ∧ ¬ c l) S) :
    Derives outer p (either c R S) := Derives.or h.when h'.when

theorem Derives.many (h : Derives outer (fun l => p l ∧ ¬ stops l) R)
    (hp : ∀ {l is m}, p l → R.leads l is m → p m) : Derives outer p (many stops R) := by
  intro l items l' hl hmany
  induction hmany with
  | done => exact .nil outer _
  | more hs first _ ih => exact .append (h ⟨hl, hs⟩ first) (ih (hp hl first))

end

end Reading

end Dofile
