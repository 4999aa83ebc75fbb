import Dofile.Proofs.Leaves

/-!
# Drafts

A draft is the tree that a log describes while the log is still written: the parts that
came first, and behind them an open node with a draft of its own. To start a node is to
open it behind all that is there. The innermost open node can be closed, which makes it a
part of the node around it, and a part that is a node can be enclosed: a new open node
takes it and all that came behind it. The blanks before a token go to the innermost open
node that holds something, or else to the root.
-/

namespace Dofile

namespace Log

/-- What is done with a log while it is written. Nodes are named by the marks of their starts. -/
inductive Step where
  | start
  | token (t : Token)
  | close (mark : Nat) (kind : Kind)
  | enclose (mark : Nat)

namespace Step

def token? : Step → Option Token
  | .token t => some t
  | _ => none

def closed? : Step → Option Kind
  | .close _ kind => some kind
  | _ => none

/-- Tokens are labelled as leaves and closed nodes as nodes. The last label is that of a start
which is not closed yet. -/
def IsLabelled : Step → Prop
  | .token t => t.kind.isNode = false
  | .close _ kind => kind.isNode = true ∧ kind ≠ .tombstone
  | _ => True

instance : DecidablePred IsLabelled
  | .token t => inferInstanceAs (Decidable (t.kind.isNode = false))
  | .close _ kind => inferInstanceAs (Decidable (kind.isNode = true ∧ kind ≠ .tombstone))
  | .start | .enclose _ => .isTrue trivial

end Step

def perform (log : Log) : Step → Log
  | .start => log.start
  | .token t => log.token t
  | .close mark kind => log.close mark kind
  | .enclose mark => log.enclose mark

def ofSteps (steps : List Step) : Log := steps.foldl perform .empty

end Log

/-- What a node holds: a token or a closed node, with the blanks before it in the same node.
A closed node has its mark until it is enclosed, which can be done once. -/
inductive Part where
  | token (blanks : List Char) (t : Token)
  | node (blanks : List Char) (mark? : Option Nat) (kind : Kind) (parts : List Part)

namespace Part

def blanks : Part → List Char
  | .token blanks _ => blanks
  | .node blanks .. => blanks

mutual

def tree : Part → Tree
  | .token _ t => .leaf t.kind t.text
  | .node _ _ kind parts => .node kind (treeAll parts)

def treeAll : List Part → List Tree
  | [] => []
  | p :: ps => Script.blankLeaf p.blanks ++ p.tree :: treeAll ps

end

/-- The parts before the node with a mark, its blanks, and the node with the parts behind it. -/
def split? (mark : Nat) : List Part → Option (List Part × List Char × List Part)
  | [] => none
  | p :: ps =>
    match p with
    | .node blanks (some m) kind parts =>
      if m = mark then some ([], blanks, .node [] none kind parts :: ps)
      else (split? mark ps).map fun (before, rest) => (p :: before, rest)
    | _ => (split? mark ps).map fun (before, rest) => (p :: before, rest)

theorem split?_eq_some {mark : Nat} {ps before inside : List Part} {blanks : List Char}
    (h : split? mark ps = some (before, blanks, inside)) : ∃ kind parts behind,
      ps = before ++ .node blanks (some mark) kind parts :: behind ∧
        inside = .node [] none kind parts :: behind := by
  induction ps generalizing before with
  | nil => simp [split?] at h
  | cons p ps ih =>
    have hskip : ∀ {before}, (split? mark ps).map (fun x => (p :: x.1, x.2)) = some (before, blanks, inside) →
        ∃ kind parts behind, p :: ps = before ++ .node blanks (some mark) kind parts :: behind ∧
          inside = .node [] none kind parts :: behind := by
      intro before hmap
      obtain ⟨⟨before', rest⟩, hsplit, heq⟩ := Option.map_eq_some_iff.mp hmap
      simp only [Prod.mk.injEq] at heq
      obtain ⟨rfl, rfl⟩ := heq
      obtain ⟨kind, parts, behind, rfl, rfl⟩ := ih hsplit
      exact ⟨kind, parts, behind, rfl, rfl⟩
    unfold split? at h
    split at h
    · rename_i b m kind parts
      by_cases hm : m = mark
      · simp only [hm, if_true, Option.some.injEq, Prod.mk.injEq] at h
        obtain ⟨rfl, rfl, rfl⟩ := h
        exact ⟨kind, parts, ps, by simp [hm], rfl⟩
      · exact hskip (by simpa only [hm, if_false] using h)
    · exact hskip h

end Part

inductive Draft where
  | row (parts : List Part)
  /-- Some parts, then the blanks behind them and an open node. -/
  | within (parts : List Part) (blanks : List Char) (mark : Nat) (inner : Draft)

namespace Draft

def isBare : Draft → Bool
  | .row parts => parts.isEmpty
  | .within parts _ _ inner => parts.isEmpty && inner.isBare

def start (mark : Nat) : Draft → Draft
  | .row parts => .within parts [] mark (.row [])
  | .within parts blanks m inner => .within parts blanks m (inner.start mark)

def token (t : Token) : Draft → Draft
  | .row parts => .row (parts ++ [.token (if parts.isEmpty then [] else t.leading) t])
  | .within parts blanks m inner =>
    .within parts (if !parts.isEmpty && inner.isBare then t.leading else blanks) m (inner.token t)

def close (mark : Nat) (kind : Kind) : Draft → Option Draft
  | .row _ => none
  | .within parts blanks m (.row inside) =>
    if m = mark then some (.row (parts ++ [.node blanks (some m) kind inside])) else none
  | .within parts blanks m (.within ps bs n inner) =>
    ((Draft.within ps bs n inner).close mark kind).map (.within parts blanks m)

/-- Opens a node around the one with a mark and all that came behind it. -/
def enclose (mark next : Nat) : Draft → Option Draft
  | .row parts =>
    (Part.split? mark parts).map fun (before, blanks, inside) => .within before blanks next (.row inside)
  | .within parts blanks m inner =>
    match Part.split? mark parts with
    | some (before, bs, inside) => some (.within before bs next (.within inside blanks m inner))
    | none => (inner.enclose mark next).map (.within parts blanks m)

/-! ## Steps -/

inductive Closes (mark : Nat) (kind : Kind) : Draft → Draft → Prop
  | innermost (parts : List Part) (blanks : List Char) (inside : List Part) :
    Closes mark kind (.within parts blanks mark (.row inside))
      (.row (parts ++ [.node blanks (some mark) kind inside]))
  | within (parts : List Part) (blanks : List Char) (m : Nat) {d d' : Draft} (h : Closes mark kind d d') :
    Closes mark kind (.within parts blanks m d) (.within parts blanks m d')

inductive Encloses (mark next : Nat) : Draft → Draft → Prop
  | row (before : List Part) (blanks : List Char) (kind : Kind) (parts behind : List Part) :
    Encloses mark next (.row (before ++ .node blanks (some mark) kind parts :: behind))
      (.within before blanks next (.row (.node [] none kind parts :: behind)))
  | before (before : List Part) (blanks : List Char) (kind : Kind) (parts behind : List Part)
      (bs : List Char) (m : Nat) (d : Draft) :
    Encloses mark next (.within (before ++ .node blanks (some mark) kind parts :: behind) bs m d)
      (.within before blanks next (.within (.node [] none kind parts :: behind) bs m d))
  | within (parts : List Part) (blanks : List Char) (m : Nat) {d d' : Draft} (h : Encloses mark next d d') :
    Encloses mark next (.within parts blanks m d) (.within parts blanks m d')

theorem closes_of_close {mark : Nat} {kind : Kind} {d d' : Draft} (h : d.close mark kind = some d') :
    Closes mark kind d d' := by
  fun_induction close mark kind d generalizing d' with
  | case1 => cases h
  | case2 parts blanks inside =>
    cases h
    exact .innermost parts blanks inside
  | case3 => cases h
  | case4 parts blanks m ps bs n inner ih =>
    obtain ⟨e, he, rfl⟩ := Option.map_eq_some_iff.mp h
    exact .within parts blanks m (ih he)

theorem encloses_of_enclose {mark next : Nat} {d d' : Draft} (h : d.enclose mark next = some d') :
    Encloses mark next d d' := by
  induction d generalizing d' with
  | row parts =>
    obtain ⟨⟨before, blanks, inside⟩, hsplit, rfl⟩ := Option.map_eq_some_iff.mp h
    obtain ⟨kind, parts, behind, rfl, rfl⟩ := Part.split?_eq_some hsplit
    exact .row before blanks kind parts behind
  | within parts blanks m inner ih =>
    unfold enclose at h
    split at h
    · rename_i before bs inside hsplit
      cases h
      obtain ⟨kind, parts, behind, rfl, rfl⟩ := Part.split?_eq_some hsplit
      exact .before before bs kind parts behind blanks m inner
    · obtain ⟨e, he, rfl⟩ := Option.map_eq_some_iff.mp h
      exact .within parts blanks m (ih he)

end Draft

/-- A draft while a log is written, with the mark of the next start and the blanks that go to the root. -/
structure Drafting where
  mark : Nat
  lead : List Char
  draft : Draft

namespace Drafting

def empty : Drafting := ⟨0, [], .row []⟩

def perform (d : Drafting) : Log.Step → Option Drafting
  | .start => some ⟨d.mark + 1, d.lead, d.draft.start d.mark⟩
  | .token t => some ⟨d.mark + 1, if d.draft.isBare then t.leading else d.lead, d.draft.token t⟩
  | .close mark kind => (d.draft.close mark kind).map fun draft => ⟨d.mark + 1, d.lead, draft⟩
  | .enclose mark => (d.draft.enclose mark d.mark).map fun draft => ⟨d.mark + 1, d.lead, draft⟩

end Drafting

theorem Script.leadAll_append (ss ts : List Script) :
    leadAll (ss ++ ts) = if ss = [] then leadAll ts else leadAll ss := by
  cases ss <;> simp [leadAll]

namespace Part

mutual

def script : Part → Script
  | .token _ t => .token t
  | .node _ _ kind parts => .node kind (scriptAll parts)

def scriptAll : List Part → List Script
  | [] => []
  | p :: ps => p.script :: scriptAll ps

end

theorem scriptAll_append (ps qs : List Part) : scriptAll (ps ++ qs) = scriptAll ps ++ scriptAll qs := by
  induction ps with
  | nil => simp [scriptAll]
  | cons p ps ih => simp [scriptAll, ih]

mutual

def Spaced : Part → Prop
  | .token .. => True
  | .node _ _ _ parts => SpacedRow parts

def SpacedRow : List Part → Prop
  | [] => True
  | p :: ps => p.blanks = [] ∧ p.Spaced ∧ SpacedAll ps

def SpacedAll : List Part → Prop
  | [] => True
  | p :: ps => p.blanks = p.script.lead ∧ p.Spaced ∧ SpacedAll ps

end

theorem spacedAll_append (ps qs : List Part) : SpacedAll (ps ++ qs) ↔ SpacedAll ps ∧ SpacedAll qs := by
  induction ps with
  | nil => simp [SpacedAll]
  | cons p ps ih => simp [SpacedAll, ih, and_assoc]

theorem spacedRow_append {ps : List Part} (h : ps ≠ []) (qs : List Part) :
    SpacedRow (ps ++ qs) ↔ SpacedRow ps ∧ SpacedAll qs := by
  cases ps with
  | nil => exact absurd rfl h
  | cons p ps => simp [SpacedRow, spacedAll_append, and_assoc]

mutual

theorem tree_eq : ∀ {p : Part}, p.Spaced → p.tree = p.script.tree
  | .token .., _ => rfl
  | .node _ _ _ parts, h => by rw [tree, script, Script.tree, treeAll_of_row h]

theorem treeAll_of_row : ∀ {ps : List Part}, SpacedRow ps → treeAll ps = Script.waiting (scriptAll ps)
  | [], _ => rfl
  | p :: ps, ⟨hblanks, hp, hps⟩ => by
    rw [treeAll, scriptAll, Script.waiting, hblanks, tree_eq hp, treeAll_eq hps]
    rfl

theorem treeAll_eq : ∀ {ps : List Part}, SpacedAll ps → treeAll ps = Script.forest (scriptAll ps)
  | [], _ => rfl
  | p :: ps, ⟨hblanks, hp, hps⟩ => by
    rw [treeAll, scriptAll, Script.forest, hblanks, tree_eq hp, treeAll_eq hps]

end

end Part

namespace Draft

open Dofile.Part

def scripts : Draft → List Script
  | .row parts => scriptAll parts
  | .within parts _ _ inner => scriptAll parts ++ inner.scripts

theorem isBare_iff (d : Draft) : d.isBare = true ↔ d.scripts = [] := by
  induction d with
  | row parts => cases parts <;> simp [isBare, scripts, scriptAll]
  | within parts blanks m inner ih => cases parts <;> simp [isBare, scripts, scriptAll, ih]

theorem scripts_start (d : Draft) (mark : Nat) : (d.start mark).scripts = d.scripts := by
  induction d with
  | row parts => simp [start, scripts, scriptAll]
  | within parts blanks m inner ih => simp [start, scripts, ih]

theorem scripts_token (d : Draft) (t : Token) : (d.token t).scripts = d.scripts ++ [.token t] := by
  induction d with
  | row parts => simp [token, scripts, scriptAll_append, scriptAll, script]
  | within parts blanks m inner ih => simp [token, scripts, ih]

theorem Closes.scripts {mark : Nat} {kind : Kind} {d d' : Draft} (h : Closes mark kind d d') :
    ∃ around inside, d.scripts = around ++ inside ∧ d'.scripts = around ++ [.node kind inside] := by
  induction h with
  | innermost parts blanks inside =>
    exact ⟨scriptAll parts, scriptAll inside, rfl, by simp [Draft.scripts, scriptAll_append, scriptAll, script]⟩
  | within parts blanks m _ ih =>
    obtain ⟨around, inside, hd, hd'⟩ := ih
    exact ⟨scriptAll parts ++ around, inside, by simp [Draft.scripts, hd], by simp [Draft.scripts, hd']⟩

theorem Encloses.scripts {mark next : Nat} {d d' : Draft} (h : Encloses mark next d d') :
    d'.scripts = d.scripts := by
  induction h with
  | row => simp [Draft.scripts, scriptAll_append, scriptAll, script]
  | before => simp [Draft.scripts, scriptAll_append, scriptAll, script]
  | within _ _ _ _ ih => simp [Draft.scripts, ih]

/-! ## Blanks -/

def lead (d : Draft) : List Char := Script.leadAll d.scripts

def Spaced : Draft → Prop
  | .row parts => SpacedRow parts
  | .within parts blanks _ inner =>
    SpacedRow parts ∧ (blanks = if parts.isEmpty then [] else inner.lead) ∧ inner.Spaced

theorem lead_start (d : Draft) (mark : Nat) : (d.start mark).lead = d.lead := by
  rw [lead, scripts_start]
  rfl

theorem lead_token (d : Draft) (t : Token) : (d.token t).lead = if d.isBare then t.leading else d.lead := by
  rw [lead, scripts_token]
  by_cases hbare : d.isBare = true
  · rw [if_pos hbare, (isBare_iff d).mp hbare]
    simp [Script.leadAll, Script.lead]
  · rw [if_neg hbare, Script.leadAll_append, if_neg fun h => hbare ((isBare_iff d).mpr h)]
    rfl

theorem Closes.lead {mark : Nat} {kind : Kind} {d d' : Draft} (h : Closes mark kind d d') : d'.lead = d.lead := by
  obtain ⟨around, inside, hd, hd'⟩ := h.scripts
  rw [Draft.lead, Draft.lead, hd, hd', Script.leadAll_append, Script.leadAll_append]
  rfl

theorem Encloses.lead {mark next : Nat} {d d' : Draft} (h : Encloses mark next d d') : d'.lead = d.lead := by
  rw [Draft.lead, h.scripts]
  rfl

theorem spaced_start {d : Draft} (h : d.Spaced) (mark : Nat) : (d.start mark).Spaced := by
  induction d with
  | row parts => exact ⟨h, by simp [lead, scripts, scriptAll, Script.leadAll], trivial⟩
  | within parts blanks m inner ih => exact ⟨h.1, by rw [lead_start, h.2.1], ih h.2.2⟩

theorem spaced_token {d : Draft} (h : d.Spaced) (t : Token) : (d.token t).Spaced := by
  induction d with
  | row parts =>
    cases parts with
    | nil => exact ⟨rfl, trivial, trivial⟩
    | cons p ps => exact (spacedRow_append (by simp) _).mpr ⟨h, rfl, trivial, trivial⟩
  | within parts blanks m inner ih =>
    refine ⟨h.1, ?_, ih h.2.2⟩
    rw [lead_token, h.2.1]
    by_cases hparts : parts.isEmpty = true
    · simp [hparts]
    · simp [hparts]

theorem Closes.spaced {mark : Nat} {kind : Kind} {d d' : Draft} (h : Closes mark kind d d') (hd : d.Spaced) :
    d'.Spaced := by
  induction h with
  | innermost parts blanks inside =>
    obtain ⟨hparts, rfl, hinside⟩ := hd
    cases parts with
    | nil => exact ⟨rfl, hinside, trivial⟩
    | cons p ps => exact (spacedRow_append (by simp) _).mpr ⟨hparts, rfl, hinside, trivial⟩
  | within parts blanks m h ih => exact ⟨hd.1, by rw [h.lead, hd.2.1], ih hd.2.2⟩

/-- A node that is enclosed leaves its blanks to the node that encloses it. -/
theorem spacedRow_split {before behind parts : List Part} {blanks : List Char} {mark : Nat} {kind : Kind}
    (h : SpacedRow (before ++ .node blanks (some mark) kind parts :: behind)) :
    SpacedRow before ∧ (blanks = if before.isEmpty then [] else Script.leadAll (scriptAll parts)) ∧
      SpacedRow (.node [] none kind parts :: behind) := by
  cases before with
  | nil =>
    obtain ⟨hblanks, hparts, hbehind⟩ := h
    exact ⟨trivial, hblanks, rfl, hparts, hbehind⟩
  | cons p ps =>
    obtain ⟨hbefore, hblanks, hparts, hbehind⟩ := (spacedRow_append (by simp) _).mp h
    exact ⟨hbefore, hblanks, rfl, hparts, hbehind⟩

theorem Encloses.spaced {mark next : Nat} {d d' : Draft} (h : Encloses mark next d d') (hd : d.Spaced) :
    d'.Spaced := by
  induction h with
  | row before blanks kind parts behind => exact spacedRow_split hd
  | before before blanks kind parts behind bs m d =>
    obtain ⟨hrow, hbs, hinner⟩ := hd
    obtain ⟨hbefore, hblanks, hinside⟩ := spacedRow_split hrow
    exact ⟨hbefore, hblanks, hinside, by simpa using hbs, hinner⟩
  | within parts blanks m h ih => exact ⟨hd.1, by rw [h.lead, hd.2.1], ih hd.2.2⟩

end Draft

end Dofile
