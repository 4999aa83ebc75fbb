import Dofile.Grammar.Nesting
import Dofile.Proofs.Run

/-!
# Nesting without a stack

`construct` reads a construct by recursion: it opens the delimiter, reads one item
of content after the other, each construct among them by `construct` again, and
closes or gives up itself. `finishFrames_openFrame` shows that the stack of frames
takes the same steps: it stands for the constructs that the recursion has entered
and not left, and `unwind` is what is still to be done for them. `finishFrames` is
written as a repetition and a fold, and `ends_finishFrames` shows that these are the
two parts of one loop over the stack, each turn of which looks at the innermost frame.
-/

namespace Dofile.Grammar

/-! ## The recursion -/

def contentItem (construct : Family → Nat → Mode → Run → Run) (family : Family) (depth : Nat)
    (s : Run) : Run :=
  let mode := family.mode
  if s.isAt .compoundOpen && family == .compoundString then
    construct .compoundString (depth + 1) mode s
  else if s.isAt .backtick then construct .localMacro (family.innerMacroDepth depth) mode s
  else if s.isAt .dollar then globalMacro mode s
  else if s.isAt .doubleQuote then doubleString mode s
  else s.takeIn mode

def contentEnds (family : Family) (s : Run) : Bool := s.isAt family.closer || s.atLineEnd

/-- A construct at its opener, where `contents` reads what it contains. -/
def constructWith (contents : Family → Nat → Run → Run) (family : Family) (depth : Nat) (outer : Mode)
    (s : Run) : Run :=
  let s := s.expect family.opener
  let mark := s.mark
  let opener := s.ahead.span
  let s := contents family depth (s.start.takeIn family.mode)
  if s.isAt family.closer then (s.takeIn outer).close mark (family.kindAt depth)
  else unterminated s mark (family.kindAt depth) opener family.problem outer

def contentsFor : Nat → Family → Nat → Run → Run
  | 0, _, _, s => s
  | fuel + 1, family, depth, s =>
    if contentEnds family s then s
    else contentsFor fuel family depth (contentItem (constructWith (contentsFor fuel)) family depth s)

/-- The content of a construct. There are no more items than characters. -/
def contents (family : Family) (depth : Nat) (s : Run) : Run :=
  contentsFor s.rest.length family depth s

def construct (family : Family) (depth : Nat) (outer : Mode) (s : Run) : Run :=
  constructWith contents family depth outer s

/-! ## What a construct leaves behind -/

structure Passes (mode : Mode) (s s' : Run) : Prop where
  mode : s'.lexer.mode = mode
  rest : s'.rest.length < s.rest.length

theorem unterminated_lexer (s : Run) (mark : Nat) (kind : Kind) (span : Span) (problem : Problem)
    (outer : Mode) : (unterminated s mark kind span problem outer).lexer = s.lexer.relex outer := by
  simp [unterminated]

theorem takeIn_passes {s : Run} (h : s.lexer.kind ≠ .eof) (mode : Mode) : Passes mode s (s.takeIn mode) :=
  ⟨by rw [Run.takeIn_lexer h]; rfl, Run.takeIn_rest_lt h mode⟩

theorem opener_passes {s : Run} (h : s.lexer.kind ≠ .eof) (opener : Kind) (mode : Mode) :
    Passes mode s ((s.expect opener).start.takeIn mode) := by
  have hl : (s.expect opener).start.lexer = s.lexer := by simp
  have hp := takeIn_passes (s := (s.expect opener).start) (hl ▸ h) mode
  exact ⟨hp.mode, by simpa only [Run.rest, hl] using hp.rest⟩

/-- Closing a construct at its closer or giving it up both end in the outer mode. -/
theorem finish_lexer (s : Run) {closer : Kind} (hcloser : closer ≠ .eof) (mark : Nat) (kind : Kind)
    (span : Span) (problem : Problem) (outer : Mode) :
    let s' := if s.isAt closer then (s.takeIn outer).close mark kind
      else unterminated s mark kind span problem outer
    s'.lexer.mode = outer ∧ s'.rest.length ≤ s.rest.length := by
  simp only
  split
  · rename_i h
    rw [Run.isAt_iff] at h
    have hp := takeIn_passes (h ▸ hcloser) outer
    refine ⟨?_, ?_⟩
    · rw [Run.close_lexer]; exact hp.mode
    · rw [Run.rest, Run.close_lexer]; exact Nat.le_of_lt hp.rest
  · simp [Run.rest, unterminated_lexer]

theorem globalMacro_passes (outer : Mode) {s : Run} (h : s.lexer.kind ≠ .eof) :
    Passes outer s (globalMacro outer s) := by
  have hopen := (opener_passes h .dollar .globalMacro).rest
  generalize ho : (s.expect .dollar).start.takeIn .globalMacro = o at hopen
  simp only [globalMacro, ho]
  split
  · rename_i hi
    rw [Run.isAt_iff] at hi
    have hp := takeIn_passes (by rw [hi]; decide) outer (s := o)
    exact ⟨by rw [Run.close_lexer]; exact hp.mode,
      by rw [Run.rest, Run.close_lexer]; exact Nat.lt_trans hp.rest hopen⟩
  split
  · have hb := Run.takeIn_rest_le o .globalMacro
    generalize o.takeIn .globalMacro = b at hb
    have hn : (if b.isAt .ident then b.takeIn .globalMacro
        else if b.isAt .rightBrace then b.report .expectedGlobalMacroName else b).rest.length ≤
        b.rest.length := by
      split
      · exact Run.takeIn_rest_le b .globalMacro
      · split <;> simp [Run.rest]
    generalize (if b.isAt .ident then b.takeIn .globalMacro
        else if b.isAt .rightBrace then b.report .expectedGlobalMacroName else b) = n at hn
    have hf := @finish_lexer n .rightBrace (by decide) (s.expect .dollar).mark .globalMacro
      ⟨(s.expect .dollar).ahead.start, n.ahead.start⟩ .unterminatedGlobalMacro outer
    exact ⟨hf.1, by have := hf.2; omega⟩
  · exact ⟨by simp, by simpa [Run.rest] using hopen⟩

theorem doubleString_passes (outer : Mode) {s : Run} (h : s.lexer.kind ≠ .eof) :
    Passes outer s (doubleString outer s) := by
  have hopen := (opener_passes h .doubleQuote .doubleString).rest
  generalize ho : (s.expect .doubleQuote).start.takeIn .doubleString = o at hopen
  have hc : (o.repeatWhile (fun s => !s.isAt .doubleQuote && !s.atLineEnd) stringItem).rest.length ≤
      o.rest.length := by
    refine repeatWhile_induct (P := fun t : Run => t.rest.length ≤ o.rest.length) ?_ o.rest o
      (Nat.le_refl _)
    intro t _ ht
    unfold stringItem
    split
    · rename_i hd
      rw [Run.isAt_iff] at hd
      have := (globalMacro_passes .doubleString (by rw [hd]; decide) (s := t)).rest
      omega
    · exact Nat.le_trans (Run.takeIn_rest_le t _) ht
  simp only [doubleString, ho]
  generalize o.repeatWhile (fun s => !s.isAt .doubleQuote && !s.atLineEnd) stringItem = c at hc
  have hf := @finish_lexer c .doubleQuote (by decide) (s.expect .doubleQuote).mark
    .doubleString (s.expect .doubleQuote).ahead.span .unterminatedString outer
  exact ⟨hf.1, by have := hf.2; omega⟩

theorem closer_ne_eof (family : Family) : family.closer ≠ .eof := by cases family <;> decide

theorem closer_ne_newline (family : Family) : family.closer ≠ .newline := by cases family <;> decide

theorem opener_ne_eof (family : Family) : family.opener ≠ .eof := by cases family <;> decide

theorem not_eof_of_not_contentEnds {family : Family} {s : Run} (h : contentEnds family s = false) :
    s.lexer.kind ≠ .eof := by
  intro he
  simp [contentEnds, Run.atLineEnd, Run.isAt, Run.kind_eq, he] at h

theorem contentEnds_of_length {family : Family} {s : Run} (h : s.rest.length = 0) :
    contentEnds family s = true := by
  cases he : contentEnds family s with
  | true => rfl
  | false =>
    have := Lexer.after_length_lt (not_eof_of_not_contentEnds he)
    simp only [Run.rest] at h
    omega

/-- If the constructs nested in it do, every item of content takes something. -/
theorem contentItem_passes {construct : Family → Nat → Mode → Run → Run} {family : Family} {depth : Nat}
    {s : Run} (hs : s.lexer.kind ≠ .eof)
    (hc : ∀ f d, Passes family.mode s (construct f d family.mode s)) :
    Passes family.mode s (contentItem construct family depth s) := by
  unfold contentItem
  simp only
  split; · exact hc _ _
  split; · exact hc _ _
  split; · exact globalMacro_passes _ hs
  split; · exact doubleString_passes _ hs
  exact takeIn_passes hs _

theorem constructWith_passes {contents : Family → Nat → Run → Run}
    (hc : ∀ f d t, (contents f d t).rest.length ≤ t.rest.length) (family : Family) (depth : Nat)
    (outer : Mode) {s : Run} (h : s.lexer.kind ≠ .eof) :
    Passes outer s (constructWith contents family depth outer s) := by
  have hopen := (opener_passes h family.opener family.mode).rest
  have hle := hc family depth ((s.expect family.opener).start.takeIn family.mode)
  simp only [constructWith]
  generalize contents family depth ((s.expect family.opener).start.takeIn family.mode) = c at hle
  have hf := finish_lexer c (closer_ne_eof family) (s.expect family.opener).mark
    (family.kindAt depth) (s.expect family.opener).ahead.span family.problem outer
  exact ⟨hf.1, by have := hf.2; omega⟩

theorem contentsFor_rest_le : ∀ (fuel : Nat) (family : Family) (depth : Nat) (s : Run),
    (contentsFor fuel family depth s).rest.length ≤ s.rest.length
  | 0, _, _, _ => Nat.le_refl _
  | fuel + 1, family, depth, s => by
    unfold contentsFor
    split
    · exact Nat.le_refl _
    · rename_i he
      have hs := not_eof_of_not_contentEnds (Bool.eq_false_iff.mpr he)
      have hi := @contentItem_passes _ _ depth _ hs fun f d =>
        constructWith_passes (contentsFor_rest_le fuel) f d family.mode hs
      exact Nat.le_trans (contentsFor_rest_le fuel family depth _) (Nat.le_of_lt hi.rest)

theorem contents_rest_le (family : Family) (depth : Nat) (s : Run) :
    (contents family depth s).rest.length ≤ s.rest.length := contentsFor_rest_le ..

theorem construct_passes (family : Family) (depth : Nat) (outer : Mode) {s : Run}
    (h : s.lexer.kind ≠ .eof) : Passes outer s (construct family depth outer s) :=
  constructWith_passes contents_rest_le family depth outer h

/-! ## The recursion without its fuel -/

/-- A construct reads its content behind the opener, where less of the text is left. -/
theorem constructWith_congr {c c' : Family → Nat → Run → Run} {s : Run} (h : s.lexer.kind ≠ .eof)
    (hc : ∀ f d t, t.rest.length < s.rest.length → c f d t = c' f d t) (family : Family) (depth : Nat)
    (outer : Mode) : constructWith c family depth outer s = constructWith c' family depth outer s := by
  have hopen := (opener_passes h family.opener family.mode).rest
  simp only [constructWith, hc family depth _ hopen]

theorem contentItem_congr {c c' : Family → Nat → Mode → Run → Run} {s : Run}
    (hc : ∀ f d m, c f d m s = c' f d m s) (family : Family) (depth : Nat) :
    contentItem c family depth s = contentItem c' family depth s := by
  simp only [contentItem, hc]

/-- Fuel for what is left of the text is as good as any other. -/
theorem contentsFor_fuel : ∀ (fuel fuel' : Nat) (family : Family) (depth : Nat) (s : Run),
    s.rest.length ≤ fuel → s.rest.length ≤ fuel' →
      contentsFor fuel family depth s = contentsFor fuel' family depth s
  | 0, 0, _, _, _, _, _ => rfl
  | 0, _ + 1, family, depth, s, h, _ => by
    simp [contentsFor, contentEnds_of_length (Nat.le_zero.mp h)]
  | _ + 1, 0, family, depth, s, _, h => by
    simp [contentsFor, contentEnds_of_length (Nat.le_zero.mp h)]
  | fuel + 1, fuel' + 1, family, depth, s, h, h' => by
    simp only [contentsFor]
    cases he : contentEnds family s with
    | true => rfl
    | false =>
      have hs := not_eof_of_not_contentEnds he
      -- the fuel serves twice: for what the item contains, and for the items behind it
      have hinner : contentItem (constructWith (contentsFor fuel)) family depth s =
          contentItem (constructWith (contentsFor fuel')) family depth s :=
        contentItem_congr (fun f d m => constructWith_congr hs (fun f d t ht =>
          contentsFor_fuel fuel fuel' f d t (by omega) (by omega)) f d m) family depth
      have hi := (@contentItem_passes _ _ depth _ hs fun f d =>
        constructWith_passes (contentsFor_rest_le fuel) f d family.mode hs).rest
      simp only [Bool.false_eq_true, if_false]
      rw [← hinner]
      exact contentsFor_fuel fuel fuel' family depth _ (by omega) (by omega)

theorem contents_of_ends {family : Family} {s : Run} (h : contentEnds family s = true) (depth : Nat) :
    contents family depth s = s := by
  unfold contents
  cases s.rest.length <;> simp [contentsFor, h]

theorem contents_of_not_ends {family : Family} {s : Run} (h : contentEnds family s = false)
    (depth : Nat) :
    contents family depth s = contents family depth (contentItem construct family depth s) := by
  have hs := not_eof_of_not_contentEnds h
  have hpos : s.rest.length = (s.rest.length - 1) + 1 := by
    have := Lexer.after_length_lt hs
    simp only [Run.rest]
    omega
  have hi := (@contentItem_passes _ _ depth _ hs fun f d =>
    construct_passes f d family.mode hs).rest
  have hinner : contentItem (constructWith (contentsFor (s.rest.length - 1))) family depth s =
      contentItem construct family depth s :=
    contentItem_congr (fun f d m => constructWith_congr hs (fun f d t ht =>
      contentsFor_fuel _ _ f d t (by omega) (Nat.le_refl _)) f d m) family depth
  rw [contents, hpos, contentsFor, h, if_neg Bool.false_ne_true, hinner]
  exact contentsFor_fuel _ _ family depth _ (by omega) (Nat.le_refl _)

/-! ## The stack -/

def finishFrame (s : Run) (frame : Frame) : Run :=
  if s.isAt frame.family.closer then closeFrame s frame else abandonFrame s frame

/-- What is still to be done for the open frames, the innermost first. -/
def unwind : Run → List Frame → Run
  | s, [] => s
  | s, frame :: frames => unwind (finishFrame (contents frame.family frame.depth s) frame) frames

/-- The stacks that can be open while tokens are read in a mode: the innermost frame
reads in that mode, and each one goes on in the mode of the next. -/
def Stacked : Mode → List Frame → Prop
  | _, [] => True
  | mode, frame :: frames => mode = frame.family.mode ∧ Stacked frame.outer frames

theorem closeFrame_passes {s : Run} {frame : Frame} (h : s.isAt frame.family.closer = true) :
    Passes frame.outer s (closeFrame s frame) := by
  rw [Run.isAt_iff] at h
  have hp := takeIn_passes (h ▸ closer_ne_eof frame.family) frame.outer
  exact ⟨by rw [closeFrame, Run.close_lexer]; exact hp.mode,
    by rw [closeFrame, Run.rest, Run.close_lexer]; exact hp.rest⟩

theorem abandonFrame_lexer (s : Run) (frame : Frame) :
    (abandonFrame s frame).lexer = s.lexer.relex frame.outer := unterminated_lexer ..

theorem openFrame_passes {s : Run} (h : s.lexer.kind ≠ .eof) (family : Family) (depth : Nat)
    (outer : Mode) (frames : List Frame) :
    Passes family.mode s (openFrame family depth outer (s, frames)).1 :=
  opener_passes h family.opener family.mode

/-- What is to be done for a construct that has just been opened is the construct. -/
theorem unwind_openFrame (s : Run) (family : Family) (depth : Nat) (outer : Mode) (frames : List Frame) :
    unwind (openFrame family depth outer (s, frames)).1 (openFrame family depth outer (s, frames)).2 =
      unwind (construct family depth outer s) frames := by
  simp only [openFrame, unwind, finishFrame, closeFrame, abandonFrame, construct, constructWith]

theorem isNesting_iff (s : Run) (frames : List Frame) :
    isNesting (s, frames) = true ↔ frames ≠ [] ∧ ¬ s.lexer.EndsLine := by
  rw [← Run.atLineEnd_iff]
  simp [isNesting]

theorem endsLine_of_not_isNesting {s : Run} {frame : Frame} {frames : List Frame}
    (h : isNesting (s, frame :: frames) = false) : s.lexer.EndsLine := by
  refine Classical.byContradiction fun hs => ?_
  rw [(isNesting_iff s (frame :: frames)).mpr ⟨by simp, hs⟩] at h
  cases h

def itemStep (s : Run) (frame : Frame) (frames : List Frame) : Nesting :=
  let mode := frame.family.mode
  if s.isAt .compoundOpen && frame.family == .compoundString then
    openFrame .compoundString (frame.depth + 1) mode (s, frame :: frames)
  else if s.isAt .backtick then
    openFrame .localMacro (frame.family.innerMacroDepth frame.depth) mode (s, frame :: frames)
  else if s.isAt .dollar then (globalMacro mode s, frame :: frames)
  else if s.isAt .doubleQuote then (doubleString mode s, frame :: frames)
  else (s.takeIn mode, frame :: frames)

theorem nestingStep_closer {s : Run} {frame : Frame} (h : s.isAt frame.family.closer = true)
    (frames : List Frame) : nestingStep (s, frame :: frames) = (closeFrame s frame, frames) := if_pos h

theorem nestingStep_item {s : Run} {frame : Frame} (h : s.isAt frame.family.closer = false)
    (frames : List Frame) : nestingStep (s, frame :: frames) = itemStep s frame frames :=
  if_neg (Bool.eq_false_iff.mp h)

/-- At an item, the engine opens the construct that the recursion would enter, or takes
what the recursion would take. -/
theorem itemStep_spec {s : Run} (hs : s.lexer.kind ≠ .eof) (frame : Frame) (frames : List Frame) :
    let n := itemStep s frame frames
    n.1.rest.length < s.rest.length ∧
      unwind n.1 n.2 = unwind (contentItem construct frame.family frame.depth s) (frame :: frames) ∧
      (Stacked s.lexer.mode (frame :: frames) → Stacked n.1.lexer.mode n.2) := by
  have hinner : ∀ family depth, (openFrame family depth frame.family.mode (s, frame :: frames)).1.rest.length <
        s.rest.length ∧
      (Stacked s.lexer.mode (frame :: frames) →
        Stacked (openFrame family depth frame.family.mode (s, frame :: frames)).1.lexer.mode
          (openFrame family depth frame.family.mode (s, frame :: frames)).2) := by
    intro family depth
    have hp := openFrame_passes hs family depth frame.family.mode (frame :: frames)
    exact ⟨hp.rest, fun hst => ⟨hp.mode, rfl, hst.2⟩⟩
  unfold itemStep contentItem
  simp only
  split
  · exact ⟨(hinner _ _).1, unwind_openFrame .., (hinner _ _).2⟩
  split
  · exact ⟨(hinner _ _).1, unwind_openFrame .., (hinner _ _).2⟩
  split
  · have hp := globalMacro_passes frame.family.mode hs
    exact ⟨hp.rest, rfl, fun hst => ⟨hp.mode, hst.2⟩⟩
  split
  · have hp := doubleString_passes frame.family.mode hs
    exact ⟨hp.rest, rfl, fun hst => ⟨hp.mode, hst.2⟩⟩
  · have hp := takeIn_passes hs frame.family.mode
    exact ⟨hp.rest, rfl, fun hst => ⟨hp.mode, hst.2⟩⟩

/-- A step of the engine does part of what is to be done, and keeps the stack in order. -/
theorem nestingStep_spec {s : Run} {frame : Frame} {frames : List Frame} (hn : ¬ s.lexer.EndsLine) :
    let n := nestingStep (s, frame :: frames)
    n.1.rest.length < s.rest.length ∧ unwind n.1 n.2 = unwind s (frame :: frames) ∧
      (Stacked s.lexer.mode (frame :: frames) → Stacked n.1.lexer.mode n.2) := by
  cases hc : s.isAt frame.family.closer with
  | true =>
    rw [nestingStep_closer hc]
    have hp := closeFrame_passes hc
    refine ⟨hp.rest, ?_, fun hst => hp.mode ▸ hst.2⟩
    rw [unwind, contents_of_ends (by simp [contentEnds, hc]), finishFrame, if_pos hc]
  | false =>
    rw [nestingStep_item hc]
    have he : contentEnds frame.family s = false := by
      rw [contentEnds, hc, Bool.false_or, Bool.eq_false_iff, ne_eq, Run.atLineEnd_iff]
      exact hn
    obtain ⟨hrest, hunwind, hst⟩ := itemStep_spec (Lexer.ne_eof_of_not_endsLine hn) frame frames
    refine ⟨hrest, ?_, hst⟩
    rw [hunwind, unwind, unwind, contents_of_not_ends he]

theorem nestingStep_rest_lt : ∀ n : Nesting, isNesting n = true →
    (nestingStep n).1.rest.length < n.1.rest.length
  | (s, []), h => absurd rfl ((isNesting_iff s []).mp h).1
  | (s, _ :: _), h => (nestingStep_spec ((isNesting_iff s _).mp h).2).1

theorem mode_not_mataBrace (family : Family) : family.mode ≠ .mataBrace := by cases family <;> decide

theorem mode_skipsBlanks (family : Family) : family.mode.skipsBlanks = false := by cases family <;> rfl

theorem finishFrame_of_endsLine {s : Run} (he : s.lexer.EndsLine) (frame : Frame) :
    finishFrame (contents frame.family frame.depth s) frame = abandonFrame s frame := by
  have hends : contentEnds frame.family s = true := by
    simp [contentEnds, (Run.atLineEnd_iff s).mpr he]
  have hcloser : s.isAt frame.family.closer = false := by
    rw [Run.isAt_eq_false_iff]
    rcases he with he | he <;> rw [he]
    · exact (closer_ne_newline frame.family).symm
    · exact (closer_ne_eof frame.family).symm
  rw [contents_of_ends hends, finishFrame, hcloser, if_neg Bool.false_ne_true]

/-- At the end of the line all open constructs are given up, the innermost first. -/
theorem unwind_of_endsLine : ∀ (frames : List Frame) {s : Run}, Stacked s.lexer.mode frames →
    s.lexer.EndsLine → unwind s frames = frames.foldl abandonFrame s
  | [], _, _, _ => rfl
  | frame :: frames, s, hst, he => by
    rw [unwind, finishFrame_of_endsLine he, List.foldl_cons]
    cases frames with
    | nil => rfl
    | cons next frames =>
      have hdone : Lexer.LineDone s.lexer.rest :=
        Lexer.lineDone_of_endsLine (hst.1 ▸ mode_not_mataBrace _) (hst.1 ▸ mode_skipsBlanks _) he
      apply unwind_of_endsLine (next :: frames)
      · rw [abandonFrame_lexer]
        exact hst.2
      · rw [abandonFrame_lexer]
        exact Lexer.endsLine_of_lineDone (hst.2.1 ▸ mode_not_mataBrace _) hdone

/-- The engine does for the frames on its stack what the recursion does for the
constructs that it has entered. -/
theorem finishFrames_eq_unwind {s : Run} {frames : List Frame} (hst : Stacked s.lexer.mode frames) :
    finishFrames (s, frames) = unwind s frames := by
  -- every step leaves the same to be done
  have hinv := @repeatWhile_induct Char Nesting isNesting nestingStep
    (fun n => Stacked n.1.lexer.mode n.2 ∧ unwind n.1 n.2 = unwind s frames)
    (fun n hn hP => by
      obtain ⟨t, fs⟩ := n
      obtain ⟨hne, hends⟩ := (isNesting_iff t fs).mp hn
      obtain ⟨frame, fs, rfl⟩ := List.exists_cons_of_ne_nil hne
      obtain ⟨-, hunwind, hst'⟩ := @nestingStep_spec t frame fs hends
      exact ⟨hst' hP.1, hunwind.trans hP.2⟩)
    s.rest (s, frames) ⟨hst, rfl⟩
  have hdone := @repeatWhile_done Char Nesting isNesting nestingStep (fun n => n.1.rest.length)
    nestingStep_rest_lt s.rest (s, frames) (Nat.le_refl _)
  simp only [finishFrames]
  obtain ⟨hst', heq⟩ := hinv
  rw [← heq]
  generalize repeatWhile isNesting nestingStep s.rest (s, frames) = n at hst' hdone
  obtain ⟨t, fs⟩ := n
  simp only at hst' ⊢
  cases fs with
  | nil => rfl
  | cons frame fs =>
    exact (unwind_of_endsLine (frame :: fs) hst' (endsLine_of_not_isNesting hdone)).symm

/-- The stack of frames takes the steps of the recursion, at any depth and in any
outer mode: the log, the findings and the lexer are the same afterwards. -/
theorem finishFrames_openFrame (family : Family) (depth : Nat) (outer : Mode) (s : Run) :
    finishFrames (openFrame family depth outer (s, [])) = construct family depth outer s := by
  by_cases he : s.lexer.kind = .eof
  -- at the end of the text there is no opener to take, so the mode does not change
  · have hends : (openFrame family depth outer (s, [])).1.lexer.EndsLine := by
      refine .inr ?_
      rw [openFrame, Run.takeIn, Run.takeAs_of_eof (by simpa using he)]
      simpa using he
    rw [← show unwind _ _ = construct family depth outer s from unwind_openFrame s family depth outer []]
    simp only [finishFrames]
    rw [repeatWhile_of_false (by simp [isNesting, (Run.atLineEnd_iff _).mpr hends])]
    exact (finishFrame_of_endsLine hends _).symm
  · have hp := openFrame_passes he family depth outer []
    have hst : Stacked (openFrame family depth outer (s, [])).1.lexer.mode
        (openFrame family depth outer (s, [])).2 := ⟨hp.mode, trivial⟩
    exact (finishFrames_eq_unwind hst).trans (unwind_openFrame s family depth outer [])

/-- The stack of frames does what the recursion does, whatever the run it starts from: the
log, the findings and the lexer are the same. The recursion in turn reads one item after
the other until its content ends. -/
theorem stack_eq_recursion (family : Family) (depth : Nat) (outer : Mode) (s : Run) :
    finishFrames (openFrame family depth outer (s, [])) = construct family depth outer s ∧
      ∀ (f : Family) (d : Nat) (t : Run), contents f d t =
        if contentEnds f t then t else contents f d (contentItem construct f d t) := by
  refine ⟨finishFrames_openFrame family depth outer s, fun f d t => ?_⟩
  cases h : contentEnds f t with
  | true => exact contents_of_ends h d
  | false => exact contents_of_not_ends h d

/-! ## One loop -/

/-- What the loop over nested constructs does at the innermost one: at the end of the line that one is
given up, and elsewhere its content goes on. -/
def nestingTurn : Nesting → Nesting
  | (s, []) => (s, [])
  | (s, frame :: frames) =>
    if s.atLineEnd then (abandonFrame s frame, frames) else nestingStep (s, frame :: frames)

theorem nestingTurn_of_endsLine {s : Run} (h : s.lexer.EndsLine) (frame : Frame) (frames : List Frame) :
    nestingTurn (s, frame :: frames) = (abandonFrame s frame, frames) := if_pos ((Run.atLineEnd_iff s).mpr h)

theorem nestingTurn_of_not_endsLine {s : Run} (h : ¬ s.lexer.EndsLine) (frame : Frame) (frames : List Frame) :
    nestingTurn (s, frame :: frames) = nestingStep (s, frame :: frames) :=
  if_neg fun ht => h ((Run.atLineEnd_iff s).mp ht)

def frames : Loop Nesting := ⟨(!·.2.isEmpty), nestingTurn⟩

/-- Between two turns the stack is in order, and no construct goes on where line breaks are content. -/
def Nested (n : Nesting) : Prop := Stacked n.1.lexer.mode n.2 ∧ ∀ frame ∈ n.2, frame.outer ≠ .mataBrace

theorem nested_openFrame {s : Run} {family : Family} (hs : s.isAt family.opener = true) {outer : Mode}
    (houter : outer ≠ .mataBrace) (depth : Nat) : Nested (openFrame family depth outer (s, [])) := by
  have he : s.lexer.kind ≠ .eof := by
    rw [(Run.isAt_iff s _).mp hs]
    exact opener_ne_eof family
  refine ⟨⟨(openFrame_passes he family depth outer []).mode, trivial⟩, fun frame hframe => ?_⟩
  rw [List.mem_singleton.mp hframe]
  exact houter

theorem outer_nestingStep {s : Run} {frame : Frame} {frames : List Frame} :
    ∀ f ∈ (nestingStep (s, frame :: frames)).2, f ∈ frame :: frames ∨ f.outer = frame.family.mode := by
  intro f hf
  cases hc : s.isAt frame.family.closer with
  | true =>
    rw [nestingStep_closer hc] at hf
    exact .inl (List.mem_cons_of_mem _ hf)
  | false =>
    rw [nestingStep_item hc] at hf
    have hopened : ∀ {family depth}, f ∈ (openFrame family depth frame.family.mode (s, frame :: frames)).2 →
        f ∈ frame :: frames ∨ f.outer = frame.family.mode := fun hf =>
      (List.mem_cons.mp hf).elim (fun h => .inr (by rw [h])) .inl
    unfold itemStep at hf
    simp only at hf
    split at hf
    · exact hopened hf
    split at hf
    · exact hopened hf
    repeat' split at hf
    all_goals exact .inl hf

theorem Nested.lineDone {s : Run} {frame : Frame} {frames : List Frame} (h : Nested (s, frame :: frames))
    (hs : s.lexer.EndsLine) : Lexer.LineDone s.lexer.rest := by
  have hmode : s.lexer.mode = frame.family.mode := h.1.1
  exact Lexer.lineDone_of_endsLine (hmode ▸ mode_not_mataBrace _) (hmode ▸ mode_skipsBlanks _) hs

theorem ahead_abandonFrame {s : Run} {frame : Frame} {frames : List Frame} (h : Nested (s, frame :: frames))
    (hs : s.lexer.EndsLine) : (abandonFrame s frame).ahead = s.ahead := by
  have hmode : s.lexer.mode = frame.family.mode := h.1.1
  rw [Run.ahead, abandonFrame_lexer]
  exact Lexer.ahead_relex_of_lineDone (hmode ▸ mode_not_mataBrace _) (h.2 frame (by simp)) (h.lineDone hs)

theorem Nested.turn {n : Nesting} (h : Nested n) : Nested (nestingTurn n) := by
  obtain ⟨s, frames⟩ := n
  cases frames with
  | nil => exact h
  | cons frame frames =>
    by_cases hs : s.lexer.EndsLine
    · rw [nestingTurn_of_endsLine hs]
      refine ⟨?_, fun f hf => h.2 f (List.mem_cons_of_mem _ hf)⟩
      rw [abandonFrame_lexer]
      exact h.1.2
    · rw [nestingTurn_of_not_endsLine hs]
      refine ⟨(nestingStep_spec hs).2.2 h.1, fun f hf => ?_⟩
      rcases outer_nestingStep f hf with hf | hf
      · exact h.2 f hf
      · rw [hf]
        exact mode_not_mataBrace _

theorem ends_of_endsLine (stack : List Frame) {s : Run} (h : Nested (s, stack)) (hs : s.lexer.EndsLine) :
    frames.Ends (s, stack) (stack.foldl abandonFrame s, []) := by
  induction stack generalizing s with
  | nil => exact ⟨.refl, rfl⟩
  | cons frame stack ih =>
    have hnext := h.turn
    have hfirst : frames.Reaches (s, frame :: stack) (nestingTurn (s, frame :: stack)) := .turn .refl rfl
    rw [nestingTurn_of_endsLine hs] at hnext hfirst
    -- giving up a construct reads the token ahead again, and it still ends the line
    have hline : (abandonFrame s frame).lexer.EndsLine := by
      unfold Lexer.EndsLine Lexer.kind at hs ⊢
      rwa [show (abandonFrame s frame).lexer.ahead = s.lexer.ahead from ahead_abandonFrame h hs]
    rw [List.foldl_cons]
    exact ⟨hfirst.trans (ih hnext hline).1, rfl⟩

/-- The loop over nested constructs does what the rule does in two parts, and ends. -/
theorem ends_finishFrames {n : Nesting} (h : Nested n) : frames.Ends n (finishFrames n, []) := by
  have hreaches : frames.Reaches n (repeatWhile isNesting nestingStep n.1.rest n) :=
    Loop.reaches_repeatWhile (fun m hm => by
      obtain ⟨s, stack⟩ := m
      obtain ⟨hne, hs⟩ := (isNesting_iff s stack).mp hm
      obtain ⟨frame, stack, rfl⟩ := List.exists_cons_of_ne_nil hne
      exact ⟨rfl, nestingTurn_of_not_endsLine hs frame stack⟩) n.1.rest n
  have hnested := hreaches.keeps h fun _ _ hm => hm.turn
  have hdone := @repeatWhile_done Char Nesting isNesting nestingStep (fun n => n.1.rest.length)
    nestingStep_rest_lt n.1.rest n (Nat.le_refl _)
  simp only [finishFrames]
  generalize repeatWhile isNesting nestingStep n.1.rest n = m at hreaches hnested hdone
  obtain ⟨s, stack⟩ := m
  cases stack with
  | nil => exact ⟨hreaches, rfl⟩
  | cons frame stack =>
    obtain ⟨hrest, hend⟩ := ends_of_endsLine (frame :: stack) hnested (endsLine_of_not_isNesting hdone)
    exact ⟨hreaches.trans hrest, hend⟩

end Dofile.Grammar
