import Dofile.Proofs.Highlights
import Dofile.Proofs.Nesting

/-!
# Depths

A compound string or a local macro reference is labelled with the number of constructs of its family that
are open around it, itself among them, and all that stands in it is highlighted with that label. The
depths of frames decide on labels alone: what is read and what is found is the same for any others.
-/

namespace Dofile

/-! ## Runs that agree -/

structure Run.Agree (s t : Run) : Prop where
  lexer : s.lexer = t.lexer
  findings : s.findings = t.findings

theorem repeatWhile_agree {α σ : Type} {R : σ → σ → Prop} {condition : σ → Bool} {step : σ → σ}
    (hcondition : ∀ {s t}, R s t → condition s = condition t) (hstep : ∀ {s t}, R s t → R (step s) (step t)) :
    ∀ (fuel : List α) {s t : σ}, R s t → R (repeatWhile condition step fuel s) (repeatWhile condition step fuel t)
  | [], _, _, h => h
  | _ :: fuel, s, t, h => by
    rw [repeatWhile, hcondition h, repeatWhile]
    cases condition t with
    | true =>
      rw [if_pos rfl, if_pos rfl]
      exact repeatWhile_agree (R := R) hcondition hstep fuel (hstep h)
    | false => exact h

namespace Run

theorem require_findings (s : Run) (holds : Bool) (b : Breach) : (s.require holds b).findings = s.findings := by
  unfold require
  split <;> rfl

namespace Agree

variable {s t : Run} (h : Agree s t)
include h

theorem isAt (k : Kind) : s.isAt k = t.isAt k := by rw [Run.isAt, Run.isAt, Run.kind_eq, Run.kind_eq, h.lexer]

theorem ahead : s.ahead = t.ahead := congrArg Lexer.ahead h.lexer

theorem rest : s.rest = t.rest := congrArg Lexer.rest h.lexer

theorem atLineEnd : s.atLineEnd = t.atLineEnd := by rw [Run.atLineEnd, Run.atLineEnd, h.isAt, h.isAt]

theorem expect (k : Kind) : Agree (s.expect k) (t.expect k) :=
  ⟨by simp [h.lexer], by rw [Run.expect, Run.expect, require_findings, require_findings, h.findings]⟩

theorem start : Agree s.start t.start := ⟨h.lexer, h.findings⟩

theorem takeIn (mode : Mode) : Agree (s.takeIn mode) (t.takeIn mode) := by
  simp only [Run.takeIn, Run.takeAs, h.ahead]
  split
  · exact h
  · exact ⟨congrArg (·.next mode) h.lexer, h.findings⟩

theorem relex (mode : Mode) : Agree (s.relex mode) (t.relex mode) := ⟨congrArg (·.relex mode) h.lexer, h.findings⟩

theorem reportAt (problem : Problem) (span : Span) : Agree (s.reportAt problem span) (t.reportAt problem span) := by
  refine ⟨by simp [h.lexer], ?_⟩
  have hfindings : ∀ s : Run, (s.reportAt problem span).findings = s.findings.push ⟨problem, span⟩ :=
    fun s => congrArg (Array.push · _) (require_findings s _ _)
  rw [hfindings, hfindings, h.findings]

theorem report (problem : Problem) : Agree (s.report problem) (t.report problem) := by
  rw [Run.report, Run.report, h.ahead]
  exact h.reportAt problem _

/-- It does not matter which nodes are closed, and as what. -/
theorem close (mark mark' : Nat) (kind kind' : Kind) : Agree (s.close mark kind) (t.close mark' kind') :=
  ⟨by simp [h.lexer], by
    change (Run.require _ _ _).findings = (Run.require _ _ _).findings
    rw [require_findings, require_findings, h.findings]⟩

theorem enclose (mark mark' : Nat) : Agree (s.enclose mark) (t.enclose mark') :=
  ⟨by simp [h.lexer], by
    change (Run.require _ _ _).findings = (Run.require _ _ _).findings
    rw [require_findings, require_findings, h.findings]⟩

theorem closeInError (mark mark' : Nat) (kind kind' : Kind) :
    Agree (s.closeInError mark kind) (t.closeInError mark' kind') := by
  have hclosed := h.close mark mark' kind kind'
  exact (hclosed.enclose mark mark').close _ _ .error .error

end Agree

end Run

namespace Grammar

open Run (Agree)

variable {s t : Run}

theorem agree_unterminated (h : Agree s t) (mark mark' : Nat) (kind kind' : Kind) (span : Span) (problem : Problem)
    (outer : Mode) :
    Agree (unterminated s mark kind span problem outer) (unterminated t mark' kind' span problem outer) :=
  ((h.reportAt problem span).relex outer).closeInError mark mark' kind kind'

/-- A condition on which runs agree, and what they do in either case. -/
theorem agree_ite {b c : Bool} {s s' t t' : Run} (hcondition : b = c) (h : Agree s t) (h' : Agree s' t') :
    Agree (if b then s else s') (if c then t else t') := by
  subst hcondition
  split
  · exact h
  · exact h'

theorem agree_globalMacro (outer : Mode) (h : Agree s t) : Agree (globalMacro outer s) (globalMacro outer t) := by
  have hdollar := h.expect .dollar
  have hopen := hdollar.start.takeIn .globalMacro
  have hbrace := hopen.takeIn .globalMacro
  have hname := agree_ite (hbrace.isAt .ident) (hbrace.takeIn .globalMacro)
    (agree_ite (hbrace.isAt .rightBrace) (hbrace.report .expectedGlobalMacroName) hbrace)
  simp only [globalMacro]
  refine agree_ite (hopen.isAt .ident) ((hopen.takeIn outer).close _ _ _ _)
    (agree_ite (hopen.isAt .leftBrace) (agree_ite (hname.isAt .rightBrace) ((hname.takeIn outer).close _ _ _ _) ?_)
      (((hopen.report _).relex outer).closeInError _ _ _ _))
  rw [hdollar.ahead, hname.ahead]
  exact agree_unterminated hname _ _ _ _ _ _ outer

theorem agree_stringItem (h : Agree s t) : Agree (stringItem s) (stringItem t) :=
  agree_ite (h.isAt .dollar) (agree_globalMacro .doubleString h) (h.takeIn .doubleString)

theorem agree_doubleString (outer : Mode) (h : Agree s t) : Agree (doubleString outer s) (doubleString outer t) := by
  have hquote := h.expect .doubleQuote
  have hopen := hquote.start.takeIn .doubleString
  have hgoesOn : ∀ {s t : Run}, Agree s t →
      (!s.isAt .doubleQuote && !s.atLineEnd) = (!t.isAt .doubleQuote && !t.atLineEnd) :=
    fun h => by rw [h.isAt, h.atLineEnd]
  have hcontent := repeatWhile_agree (R := Agree) hgoesOn agree_stringItem
    ((t.expect .doubleQuote).start.takeIn .doubleString).rest hopen
  simp only [doubleString, Run.repeatWhile, hopen.rest, hquote.ahead]
  exact agree_ite (hcontent.isAt .doubleQuote) ((hcontent.takeIn outer).close _ _ _ _)
    (agree_unterminated hcontent _ _ _ _ _ _ outer)

end Grammar

/-! ## Frames of other depths -/

def Frame.SameButDepth (a b : Frame) : Prop := b = { a with depth := b.depth }

/-- Whether two frames differ in nothing but their depths and marks, which only nodes have to do with. -/
structure Frame.Agree (a b : Frame) : Prop where
  family : a.family = b.family
  opener : a.opener = b.opener
  outer : a.outer = b.outer

theorem Frame.SameButDepth.agree {a b : Frame} (h : a.SameButDepth b) : a.Agree b := by
  rw [h]
  exact ⟨rfl, rfl, rfl⟩

namespace Grammar

open Run (Agree)

def NestingsAgree (a b : Nesting) : Prop := Agree a.1 b.1 ∧ List.Forall₂ Frame.Agree a.2 b.2

theorem agree_openFrame (family : Family) (depth depth' : Nat) (outer : Mode) {a b : Nesting} (h : NestingsAgree a b) :
    NestingsAgree (openFrame family depth outer a) (openFrame family depth' outer b) := by
  have hopener := h.1.expect family.opener
  exact ⟨hopener.start.takeIn family.mode, .cons ⟨rfl, congrArg Token.span hopener.ahead, rfl⟩ h.2⟩

theorem agree_abandonFrame {s t : Run} {a b : Frame} (h : Agree s t) (hframe : a.Agree b) :
    Agree (abandonFrame s a) (abandonFrame t b) := by
  rw [abandonFrame, abandonFrame, hframe.opener, hframe.outer, hframe.family]
  exact agree_unterminated h _ _ _ _ _ _ _

theorem agree_nestingStep {a b : Nesting} (h : NestingsAgree a b) : NestingsAgree (nestingStep a) (nestingStep b) := by
  obtain ⟨s, frames⟩ := a
  obtain ⟨t, frames'⟩ := b
  obtain ⟨hrun, hframes⟩ := h
  cases hframes with
  | nil => exact ⟨hrun, .nil⟩
  | @cons f f' frames frames' hframe hframes =>
    have hsame : NestingsAgree (s, f :: frames) (t, f' :: frames') := ⟨hrun, .cons hframe hframes⟩
    have hclosed : Agree (closeFrame s f) (closeFrame t f') := by
      rw [closeFrame, closeFrame, hframe.outer]
      exact (hrun.takeIn _).close _ _ _ _
    simp only [nestingStep, hrun.isAt, hframe.family]
    split
    · exact ⟨hclosed, hframes⟩
    split
    · exact agree_openFrame _ _ _ _ hsame
    split
    · exact agree_openFrame _ _ _ _ hsame
    split
    · exact ⟨agree_globalMacro _ hrun, .cons hframe hframes⟩
    split
    · exact ⟨agree_doubleString _ hrun, .cons hframe hframes⟩
    · exact ⟨hrun.takeIn _, .cons hframe hframes⟩

/-- What is read and found up to the end of all open constructs does not depend on how deep they are. -/
theorem agree_finishFrames {a b : Nesting} (h : NestingsAgree a b) : Agree (finishFrames a) (finishFrames b) := by
  have hgoesOn : ∀ {a b : Nesting}, NestingsAgree a b → isNesting a = isNesting b := by
    rintro ⟨s, fs⟩ ⟨t, gs⟩ ⟨hrun, hframes⟩
    have hend := hrun.atLineEnd
    cases hframes <;> simp [isNesting, hend]
  have hread := repeatWhile_agree (R := NestingsAgree) hgoesOn agree_nestingStep b.1.rest h
  have habandon : ∀ {fs gs : List Frame} {s t : Run}, List.Forall₂ Frame.Agree fs gs → Agree s t →
      Agree (fs.foldl abandonFrame s) (gs.foldl abandonFrame t) := by
    intro fs gs s t hframes hrun
    induction hframes generalizing s t with
    | nil => exact hrun
    | cons hframe _ ih =>
      rw [List.foldl_cons, List.foldl_cons]
      exact ih (agree_abandonFrame hrun hframe)
  rw [finishFrames, finishFrames, h.1.rest]
  generalize repeatWhile isNesting nestingStep b.1.rest a = a' at hread
  generalize repeatWhile isNesting nestingStep b.1.rest b = b' at hread
  exact habandon hread.2 hread.1

end Grammar

/-! ## Labels -/

namespace Family

def capture : Family → Nat → Capture
  | localMacro, depth => .localMacro depth
  | compoundString, depth => .compoundString depth

def captureName : Family → Nat → String
  | localMacro, label => s!"variable.macro.local.depth.{label}"
  | compoundString, label => s!"string.depth.{label}"

theorem depth_kindAt (family : Family) (depth : Nat) : (family.kindAt depth).depth? = some ((depth - 1) % 6 + 1) := by
  cases family <;> rfl

theorem capture_kindAt (family : Family) (depth : Nat) :
    Capture.ofDelimited? (family.kindAt depth) = some (family.capture ((depth - 1) % 6 + 1)) := by
  cases family <;> rfl

/-- A label keeps its number when it is taken for a depth. -/
theorem label_depthLabel (depth : Nat) : (Kind.depthLabel ((depth - 1) % 6 + 1)).val + 1 = (depth - 1) % 6 + 1 := by
  change ((depth - 1) % 6 + 1 - 1) % 6 + 1 = (depth - 1) % 6 + 1
  omega

theorem name_capture (family : Family) {label : Nat} (h : (Kind.depthLabel label).val + 1 = label) :
    (family.capture label).name = family.captureName label := by
  cases family with
  | localMacro => exact congrArg (captureName localMacro) h
  | compoundString => exact congrArg (captureName compoundString) h

end Family

namespace Place

/-- A construct of a family is as deep as the constructs of its family follow each other up from it. -/
theorem Sits.kind_eq {complete : Bool} {outer : Setting} {n : Place} (h : n.Sits complete outer) {family : Family}
    (hk : Family.ofKind? n.kind = some family) : n.kind = family.kindAt (family.runOf (n.kind :: n.parentKinds)) := by
  obtain ⟨hdelimited, hne⟩ := Family.isDelimited_of_ofKind hk
  obtain ⟨q, _, _, _, hq, hkind, -⟩ := h.nests.construct_cases hdelimited hne
  have hkind : n.kind = q.kind := hkind
  rw [hkind] at hk ⊢
  rcases q with _ | ⟨f, depth⟩
  · cases hk
  · obtain rfl : f = family := by cases f <;> cases hk <;> rfl
    rw [Construct.kind, f.runOf_same _ (f.ofKind_kindAt depth), h.depth f, ← Setting.depth_of_opens hq]

end Place

namespace Parse

/-- A compound string or a local macro reference is labelled with how many of its family follow each other up from it,
and the leaves in it are highlighted with that label. What is found does not depend on how deep anything is. -/
theorem depths_are_labelled (text : List Char) (hsize : byteSize text ≤ maxOffset) :
    let p := ofText text
    (∀ n ∈ p.root.nodes, ∀ family : Family, Family.ofKind? n.kind = some family →
      let depth := family.runOf (n.kind :: n.parentKinds)
      let label := (depth - 1) % 6 + 1
      1 ≤ depth ∧ n.kind.depth? = some label ∧ ∀ leaf ∈ p.root.leaves, leaf.innermost? = some n →
        ∃ r ∈ Highlight.ofTree p.tree, r.span.Contains leaf.span ∧ r.capture = family.capture label ∧
          r.capture.name = family.captureName label ∧
          ∀ r' ∈ Highlight.ofTree p.tree, r'.span.start < leaf.stop → leaf.start < r'.span.stop → r' = r) ∧
      ∀ (s : Run) (frames frames' : List Frame), List.Forall₂ Frame.SameButDepth frames frames' →
        (Grammar.finishFrames (s, frames)).findings = (Grammar.finishFrames (s, frames')).findings := by
  refine ⟨fun n hn family hk => ?_, fun s frames frames' hframes => ?_⟩
  · obtain ⟨_, _, hsits⟩ := sits_of_node hsize hn
    have hkind := hsits.kind_eq hk
    intro depth label
    have hdepth : depth = family.runOf n.parentKinds + 1 := family.runOf_same n.parentKinds hk
    refine ⟨by omega, (congrArg Kind.depth? hkind).trans (family.depth_kindAt depth), fun leaf hleaf hinner => ?_⟩
    have hcapture : Capture.ofDelimited? n.kind = some (family.capture label) :=
      (congrArg Capture.ofDelimited? hkind).trans (family.capture_kindAt depth)
    obtain ⟨r, hr, hcontains, hsame, honly⟩ := range_of_innermost hsize hleaf hinner hcapture
    exact ⟨r, hr, hcontains, hsame, by rw [hsame, family.name_capture (Family.label_depthLabel depth)], honly⟩
  · have hsame : Grammar.NestingsAgree (s, frames) (s, frames') :=
      ⟨⟨rfl, rfl⟩, hframes.imp fun _ _ h => h.agree⟩
    exact (Grammar.agree_finishFrames hsame).findings

theorem depths_are_labelled_restarted :
    let text := "display `a`\"b `c`d $e'\nlocal x `\"f `\"g\"'".toList
    let p := ofText text
    byteSize text ≤ maxOffset ∧
      (∀ n ∈ p.root.nodes, ∀ family : Family, Family.ofKind? n.kind = some family →
        let depth := family.runOf (n.kind :: n.parentKinds)
        let label := (depth - 1) % 6 + 1
        1 ≤ depth ∧ n.kind.depth? = some label ∧ ∀ leaf ∈ p.root.leaves, leaf.innermost? = some n →
          ∃ r ∈ Highlight.ofTree p.tree, r.span.Contains leaf.span ∧ r.capture = family.capture label ∧
            r.capture.name = family.captureName label ∧
            ∀ r' ∈ Highlight.ofTree p.tree, r'.span.start < leaf.stop → leaf.start < r'.span.stop → r' = r) ∧
      ∀ (s : Run) (frames frames' : List Frame), List.Forall₂ Frame.SameButDepth frames frames' →
        (Grammar.finishFrames (s, frames)).findings = (Grammar.finishFrames (s, frames')).findings := by
  have hsize : byteSize "display `a`\"b `c`d $e'\nlocal x `\"f `\"g\"'".toList ≤ maxOffset := by decide
  exact ⟨hsize, depths_are_labelled _ hsize⟩

end Parse

end Dofile
