import Dofile.Proofs.Draft
import Dofile.Proofs.Openings

/-!
# The tree that steps draft

However properly nested steps write a log, the replay of the log builds the tree that they
draft. Each step changes the slots of the log as it changes the draft, so the slots of the
whole log are those of its root written down from left to right.
-/

namespace Dofile

/-! ## Nodes in the order in which they end -/

namespace Tree

mutual

def closings : Tree → List Kind
  | .leaf .. => []
  | .node kind ts => closingsAll ts ++ [kind]

def closingsAll : List Tree → List Kind
  | [] => []
  | t :: ts => t.closings ++ closingsAll ts

end

theorem closingsAll_append (ts us : List Tree) : closingsAll (ts ++ us) = closingsAll ts ++ closingsAll us := by
  induction ts with
  | nil => simp [closingsAll]
  | cons t ts ih => simp [closingsAll, ih]

end Tree

namespace Script

mutual

def closings : Script → List Kind
  | .token _ => []
  | .node kind children => closingsAll children ++ [kind]
  | .enclosing kind inner between after => inner.closings ++ closingsAll between ++ closingsAll after ++ [kind]

def closingsAll : List Script → List Kind
  | [] => []
  | s :: ss => s.closings ++ closingsAll ss

end

theorem closingsAll_append (ss ts : List Script) : closingsAll (ss ++ ts) = closingsAll ss ++ closingsAll ts := by
  induction ss with
  | nil => simp [closingsAll]
  | cons s ss ih => simp [closingsAll, ih]

theorem closingsAll_blankLeaf (blanks : List Char) : Tree.closingsAll (blankLeaf blanks) = [] := by
  cases blanks <;> simp [blankLeaf, Tree.closingsAll, Tree.closings]

mutual

theorem closings_tree : ∀ s : Script, s.tree.closings = s.closings
  | .token _ => rfl
  | .node _ children => by simp [tree, closings, Tree.closings, closings_waiting children]
  | .enclosing _ inner between after => by
    simp [tree, closings, Tree.closings, Tree.closingsAll, Tree.closingsAll_append, closings_tree inner,
      closings_forest between, closings_forest after]

theorem closings_waiting : ∀ ss : List Script, Tree.closingsAll (waiting ss) = closingsAll ss
  | [] => rfl
  | s :: ss => by simp [waiting, closingsAll, Tree.closingsAll, closings_tree s, closings_forest ss]

theorem closings_forest : ∀ ss : List Script, Tree.closingsAll (forest ss) = closingsAll ss
  | [] => rfl
  | s :: ss => by
    simp [forest, closingsAll, Tree.closingsAll, Tree.closingsAll_append, closingsAll_blankLeaf, closings_tree s,
      closings_forest ss]

end

mutual

theorem flatMap_tokens : ∀ s : Script, s.tokens.flatMap Token.fullText = s.text
  | .token t => by simp [tokens, text]
  | .node _ children => by rw [tokens, text, flatMap_tokensAll children]
  | .enclosing _ inner between after => by
    simp [tokens, text, flatMap_tokens inner, flatMap_tokensAll between, flatMap_tokensAll after]

theorem flatMap_tokensAll : ∀ ss : List Script, (tokensAll ss).flatMap Token.fullText = textAll ss
  | [] => rfl
  | s :: ss => by simp [tokensAll, textAll, flatMap_tokens s, flatMap_tokensAll ss]

end

end Script

/-! ## Moves -/

namespace Part

mutual

def moves : Part → List Move
  | .token _ t => [.token t]
  | .node _ mark? kind parts => .enter mark? (some kind) :: (movesAll parts ++ [.leave])

def movesAll : List Part → List Move
  | [] => []
  | p :: ps => p.moves ++ movesAll ps

end

theorem movesAll_append (ps qs : List Part) : movesAll (ps ++ qs) = movesAll ps ++ movesAll qs := by
  induction ps with
  | nil => simp [movesAll]
  | cons p ps ih => simp [movesAll, ih]

mutual

theorem map_event_moves : ∀ p : Part, p.moves.map Move.event = p.script.events none
  | .token _ t => rfl
  | .node _ _ kind parts => by
    simp [moves, script, Script.events, Move.event, map_event_movesAll parts]

theorem map_event_movesAll : ∀ ps : List Part, (movesAll ps).map Move.event = Script.eventsAll (scriptAll ps)
  | [] => rfl
  | p :: ps => by simp [movesAll, scriptAll, Script.eventsAll, map_event_moves p, map_event_movesAll ps]

end

end Part

namespace Draft

open Dofile.Part

def moves : Draft → List Move
  | .row parts => movesAll parts
  | .within parts _ mark inner => movesAll parts ++ .enter (some mark) none :: inner.moves

theorem moves_start (d : Draft) (mark : Nat) : (d.start mark).moves = d.moves ++ [.enter (some mark) none] := by
  induction d with
  | row parts => simp [start, moves, movesAll]
  | within parts blanks m inner ih => simp [start, moves, ih]

theorem moves_token (d : Draft) (t : Token) : (d.token t).moves = d.moves ++ [.token t] := by
  induction d with
  | row parts => simp [token, moves, movesAll_append, movesAll, Part.moves]
  | within parts blanks m inner ih => simp [token, moves, ih]

theorem Closes.moves {mark : Nat} {kind : Kind} {d d' : Draft} (h : Closes mark kind d d') :
    ∃ before behind, d.moves = before ++ .enter (some mark) none :: behind ∧
      d'.moves = before ++ .enter (some mark) (some kind) :: (behind ++ [.leave]) := by
  induction h with
  | innermost parts blanks inside =>
    exact ⟨movesAll parts, movesAll inside, rfl, by simp [Draft.moves, movesAll_append, movesAll, Part.moves]⟩
  | within parts blanks m _ ih =>
    obtain ⟨before, behind, hd, hd'⟩ := ih
    exact ⟨movesAll parts ++ .enter (some m) none :: before, behind, by simp [Draft.moves, hd],
      by simp [Draft.moves, hd']⟩

theorem Encloses.moves {mark next : Nat} {d d' : Draft} (h : Encloses mark next d d') :
    ∃ before kind behind, d.moves = before ++ .enter (some mark) (some kind) :: behind ∧
      d'.moves = before ++ .enter (some next) none :: .enter none (some kind) :: behind := by
  induction h with
  | row before blanks kind parts behind =>
    exact ⟨movesAll before, kind, movesAll parts ++ .leave :: movesAll behind,
      by simp [Draft.moves, movesAll_append, movesAll, Part.moves],
      by simp [Draft.moves, movesAll, Part.moves]⟩
  | before before blanks kind parts behind bs m d =>
    exact ⟨movesAll before, kind, movesAll parts ++ .leave :: (movesAll behind ++ .enter (some m) none :: d.moves),
      by simp [Draft.moves, movesAll_append, movesAll, Part.moves],
      by simp [Draft.moves, movesAll, Part.moves]⟩
  | within parts blanks m _ ih =>
    obtain ⟨before, kind, behind, hd, hd'⟩ := ih
    exact ⟨movesAll parts ++ .enter (some m) none :: before, kind, behind, by simp [Draft.moves, hd],
      by simp [Draft.moves, hd']⟩

end Draft

/-! ## Steps -/

def Log.Makes (log : Log) (moves : List Move) : Prop :=
  ∃ slots, Slots 0 log.events.toList slots ∧ slots.flatten = moves

namespace Log

variable {log : Log} {moves : List Move}

theorem Makes.start (h : log.Makes moves) : log.start.Makes (moves ++ [.enter (some log.mark) none]) := by
  obtain ⟨slots, hslots, rfl⟩ := h
  refine ⟨slots ++ [[.enter (some log.mark) none]], ?_, by simp⟩
  have := hslots.append (by simp [mark]) (.start none (.nil (log.mark + 1)))
  simpa [Log.start, push] using this

theorem Makes.token (h : log.Makes moves) (t : Token) : (log.token t).Makes (moves ++ [.token t]) := by
  obtain ⟨slots, hslots, rfl⟩ := h
  refine ⟨slots ++ [[.token t]], ?_, by simp⟩
  have := hslots.append rfl (.token t (.nil _))
  simpa [Log.token, push] using this

theorem Makes.close {mark : Nat} {before behind : List Move}
    (h : log.Makes (before ++ .enter (some mark) none :: behind)) (kind : Kind) :
    (log.close mark kind).Makes (before ++ .enter (some mark) (some kind) :: (behind ++ [.leave])) := by
  obtain ⟨slots, hslots, hmoves⟩ := h
  have hclosed : ∀ {after rest}, after.length + mark + 1 = log.events.toList.length →
      Slots (mark + 1) after rest →
      Slots mark (setKind kind (.start none none) :: (after ++ [.finish]))
        ([.enter (some mark) (some kind)] :: (rest ++ [[.leave]])) :=
    fun _ h => .start (some kind) (h.append rfl (.finish (.nil _)))
  obtain ⟨slots', hslots', hflat⟩ := hslots.edit_middle hmoves (opens_singleton _ _) hclosed
  exact ⟨slots', by simpa [Log.close, push, modify] using hslots', by simp [hflat]⟩

theorem Makes.enclose {mark : Nat} {kind : Kind} {before behind : List Move}
    (h : log.Makes (before ++ .enter (some mark) (some kind) :: behind)) :
    (log.enclose mark).Makes (before ++ .enter (some log.mark) none :: .enter none (some kind) :: behind) := by
  obtain ⟨slots, hslots, hmoves⟩ := h
  have hlength : log.mark = log.events.toList.length := by simp [Log.mark]
  -- the link passes all that lies between and leads to the start that comes last
  have hlinked : ∀ {after rest}, after.length + mark + 1 = log.events.toList.length →
      Slots (mark + 1) after rest →
      Slots mark (setOuter (log.mark - mark) (.start (some kind) none) :: (after ++ [.start none none]))
        ([.enter (some log.mark) none, .enter none (some kind)] :: (rest ++ [[]])) := by
    intro after rest hlen h
    have hdistance : log.mark - mark = after.length + 1 := by omega
    have hnext : mark + 1 + after.length = log.mark := by omega
    have hlast : (rest ++ [[Move.enter (some log.mark) none]])[after.length]? =
        some [.enter (some log.mark) none] := by
      simp [← h.length_eq]
    have := (h.append hnext (.start none (.nil _))).linked kind hlast (opens_singleton _ _)
    simpa [hdistance, setOuter, ← h.length_eq] using this
  obtain ⟨slots', hslots', hflat⟩ := hslots.edit_middle hmoves (by simp [Opens]) hlinked
  exact ⟨slots', by simpa [Log.enclose, Log.start, push, modify] using hslots', by simp [hflat]⟩

end Log

open Script (SoundAll tokensAll closingsAll)

theorem Log.ofSteps_append (steps : List Step) (step : Step) :
    ofSteps (steps ++ [step]) = (ofSteps steps).perform step := by simp [ofSteps]

/-- Each step logs one event. -/
theorem Log.mark_perform (log : Log) (step : Step) : (log.perform step).mark = log.mark + 1 := by
  cases step <;> simp [perform, start, token, close, enclose, push, modify, mark]

structure Drafting.Follows (d : Drafting) (steps : List Log.Step) : Prop where
  mark : d.mark = (Log.ofSteps steps).mark
  moves : (Log.ofSteps steps).Makes d.draft.moves
  lead : d.lead = d.draft.lead
  spaced : d.draft.Spaced
  sound : SoundAll d.draft.scripts
  tokens : tokensAll d.draft.scripts = steps.filterMap Log.Step.token?
  closings : closingsAll d.draft.scripts = steps.filterMap Log.Step.closed?

namespace Drafting

variable {d d' : Drafting} {steps : List Log.Step}

theorem Follows.mark_succ (h : d.Follows steps) (step : Log.Step) :
    d.mark + 1 = (Log.ofSteps (steps ++ [step])).mark := by
  rw [Log.ofSteps_append, Log.mark_perform, h.mark]

/-- A step that only opens a node leaves tokens and closed nodes as they are. -/
theorem Follows.opened (h : d.Follows steps) {step : Log.Step} {draft : Draft}
    (hmoves : ((Log.ofSteps steps).perform step).Makes draft.moves) (hspaced : draft.Spaced)
    (hscripts : draft.scripts = d.draft.scripts) (htoken : step.token? = none) (hclosed : step.closed? = none) :
    Follows ⟨d.mark + 1, d.lead, draft⟩ (steps ++ [step]) where
  mark := h.mark_succ step
  moves := by rwa [Log.ofSteps_append]
  lead := by rw [h.lead, Draft.lead, Draft.lead, hscripts]
  spaced := hspaced
  sound := by rw [hscripts]; exact h.sound
  tokens := by simpa [hscripts, htoken, List.filterMap_cons] using h.tokens
  closings := by simpa [hscripts, hclosed, List.filterMap_cons] using h.closings

theorem Follows.start (h : d.Follows steps) :
    Follows ⟨d.mark + 1, d.lead, d.draft.start d.mark⟩ (steps ++ [.start]) := by
  have hmoves : (Log.ofSteps steps).start.Makes (d.draft.start d.mark).moves := by
    rw [Draft.moves_start, h.mark]
    exact h.moves.start
  exact h.opened hmoves (Draft.spaced_start h.spaced d.mark) (Draft.scripts_start ..) rfl rfl

theorem Follows.token (h : d.Follows steps) {t : Token} (ht : t.kind.isNode = false) :
    Follows ⟨d.mark + 1, if d.draft.isBare then t.leading else d.lead, d.draft.token t⟩
      (steps ++ [.token t]) where
  mark := h.mark_succ _
  moves := by
    rw [Log.ofSteps_append, Draft.moves_token]
    exact h.moves.token t
  lead := by rw [Draft.lead_token, h.lead]
  spaced := Draft.spaced_token h.spaced t
  sound := by
    rw [Draft.scripts_token, Script.soundAll_append]
    exact ⟨h.sound, ht, trivial⟩
  tokens := by
    simp [Draft.scripts_token, Script.tokensAll_append, tokensAll, Script.tokens, h.tokens, Log.Step.token?]
  closings := by
    simp [Draft.scripts_token, Script.closingsAll_append, closingsAll, Script.closings, h.closings, Log.Step.closed?]

theorem Follows.close (h : d.Follows steps) {mark : Nat} {kind : Kind} (hk : kind.isNode = true) {draft : Draft}
    (hd : d.draft.Closes mark kind draft) :
    Follows ⟨d.mark + 1, d.lead, draft⟩ (steps ++ [.close mark kind]) := by
  obtain ⟨around, inside, hbefore, hafter⟩ := hd.scripts
  have hsound := h.sound
  have htokens := h.tokens
  have hclosings := h.closings
  rw [hbefore, Script.soundAll_append] at hsound
  rw [hbefore] at htokens hclosings
  constructor
  · exact h.mark_succ _
  · obtain ⟨before, behind, hmoves, hmoves'⟩ := hd.moves
    rw [Log.ofSteps_append, hmoves']
    exact Log.Makes.close (hmoves ▸ h.moves) kind
  · exact h.lead.trans hd.lead.symm
  · exact hd.spaced h.spaced
  · rw [hafter, Script.soundAll_append]
    exact ⟨hsound.1, ⟨hk, hsound.2⟩, trivial⟩
  · simpa [hafter, Script.tokensAll_append, tokensAll, Script.tokens, Log.Step.token?, List.filterMap_cons]
      using htokens
  · simp [hafter, Script.closingsAll_append, closingsAll, Script.closings, Log.Step.closed?, ← hclosings]

theorem Follows.enclose (h : d.Follows steps) {mark : Nat} {draft : Draft}
    (hd : d.draft.Encloses mark d.mark draft) :
    Follows ⟨d.mark + 1, d.lead, draft⟩ (steps ++ [.enclose mark]) := by
  obtain ⟨before, kind, behind, hbefore, hafter⟩ := hd.moves
  have hmoves : ((Log.ofSteps steps).enclose mark).Makes draft.moves := by
    rw [hafter, h.mark]
    exact Log.Makes.enclose (hbefore ▸ h.moves)
  exact h.opened hmoves (hd.spaced h.spaced) hd.scripts rfl rfl

theorem Follows.perform (h : d.Follows steps) {step : Log.Step} (hstep : step.IsLabelled)
    (hd : d.perform step = some d') : d'.Follows (steps ++ [step]) := by
  cases step with
  | start =>
    cases hd
    exact h.start
  | token t =>
    cases hd
    exact h.token hstep
  | close mark kind =>
    obtain ⟨draft, hclose, rfl⟩ := Option.map_eq_some_iff.mp hd
    exact h.close hstep.1 (Draft.closes_of_close hclose)
  | enclose mark =>
    obtain ⟨draft, henclose, rfl⟩ := Option.map_eq_some_iff.mp hd
    exact h.enclose (Draft.encloses_of_enclose henclose)

theorem Follows.foldlM (h : d.Follows steps) {more : List Log.Step} (hmore : ∀ step ∈ more, step.IsLabelled)
    (hd : more.foldlM Drafting.perform d = some d') : d'.Follows (steps ++ more) := by
  induction more generalizing d steps with
  | nil =>
    cases hd
    simpa using h
  | cons step more ih =>
    rw [List.foldlM_cons, Option.bind_eq_bind, Option.bind_eq_some_iff] at hd
    obtain ⟨e, he, hd⟩ := hd
    have := ih (h.perform (hmore step (by simp)) he) (fun s hs => hmore s (by simp [hs])) hd
    rwa [List.append_assoc] at this

end Drafting

end Dofile
