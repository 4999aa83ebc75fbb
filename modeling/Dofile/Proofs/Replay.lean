import Dofile.Proofs.Builder

/-!
# Replaying the log of a script

The replay of a script's log builds the tree of the script. The start of a node
is met together with those of all nodes that enclose it, which are struck from the
events, so what is left to replay is the `body` of the script.
-/

namespace Dofile

namespace Script

/-! ## Links -/

def kinds : Script → List Kind
  | .token _ => []
  | .node kind _ => [kind]
  | .enclosing kind inner _ _ => inner.kinds ++ [kind]

/-- What is left of a node's log when its starts have been met. -/
def body : Script → List Event
  | .token _ => []
  | .node _ children => eventsAll children ++ [.finish]
  | .enclosing _ inner between after =>
    inner.body ++ eventsAll between ++ .start none none :: (eventsAll after ++ [.finish])

theorem length_events (outer? : Option Nat) : ∀ {s : Script}, s.isNode = true →
    (s.events outer?).length = s.body.length + 1
  | .node _ _, _ => by simp [events, body]
  | .enclosing _ inner _ _, h => by
    simp only [events, body, List.length_append, List.length_cons, length_events _ (s := inner) h]
    omega

end Script

namespace Replay

theorem strike_append : ∀ (before : List Event) (distance : Nat) (events : List Event),
    strike (before.length + distance) (before ++ events) =
      (strike distance events).map fun (kinds, events) => (kinds, before ++ events)
  | [], distance, events => by
    simp only [List.length_nil, Nat.zero_add, List.nil_append]
    cases strike distance events <;> rfl
  | e :: before, distance, events => by
    have h : (e :: before).length + distance = (before.length + distance) + 1 := by
      simp only [List.length_cons]; omega
    rw [h, List.cons_append, strike, strike_append before distance events]
    cases strike distance events <;> rfl

theorem strike_zero (kind? : Option Kind) (outer? : Option Nat) (events : List Event) :
    strike 0 (.start kind? outer? :: events) =
      (follow outer? events).map fun (kinds, events) =>
        (kind?.toList ++ kinds, .start none none :: events) := by
  rcases outer? with _ | _ | distance
  · rfl
  · rfl
  · simp only [strike, follow]
    cases strike distance events <;> rfl

/-- A link out of a node, `reach` and `distance` events ahead, leads to some kinds. -/
def Leads (outer? : Option Nat) (reach : Nat) (rest : List Event) (kinds : List Kind)
    (struck : List Event) : Prop :=
  (outer? = none ∧ kinds = [] ∧ struck = rest) ∨
    ∃ distance, outer? = some (reach + distance) ∧ strike distance rest = .ok (kinds, struck)

theorem follow_of_leads {outer? : Option Nat} {before rest struck : List Event} {kinds : List Kind}
    (h : Leads outer? (before.length + 1) rest kinds struck) :
    follow outer? (before ++ rest) = .ok (kinds, before ++ struck) := by
  rcases h with ⟨rfl, rfl, rfl⟩ | ⟨distance, rfl, h⟩
  · rfl
  · have : before.length + 1 + distance = (before.length + distance) + 1 := by omega
    rw [this, follow, strike_append, h]
    rfl

/-- At the start of a node, the links lead to the nodes that enclose it. -/
theorem follow_events : ∀ {s : Script} {outer? : Option Nat} {rest struck : List Event} {kinds : List Kind},
    s.isNode = true → Leads outer? s.reach rest kinds struck →
      ∃ kind inner? events ks, s.events outer? ++ rest = .start (some kind) inner? :: events ∧
        s.kinds = kind :: ks ∧ follow inner? events = .ok (ks ++ kinds, s.body ++ struck)
  | .node kind children, outer?, rest, struck, kinds, _, h => by
    refine ⟨kind, outer?, Script.eventsAll children ++ [.finish] ++ rest, [], ?_, rfl, ?_⟩
    · simp [Script.events]
    · exact follow_of_leads (by simpa [Script.reach] using h)
  | .enclosing kind inner between after, outer?, rest, struck, kinds, hn, h => by
    let tail := Script.eventsAll after ++ [.finish]
    -- the link passes what lies between and strikes the start of this node
    have hstrike : strike (Script.eventsAll between).length
        (Script.eventsAll between ++ .start (some kind) outer? :: (tail ++ rest)) =
          .ok (kind :: kinds, Script.eventsAll between ++ .start none none :: (tail ++ struck)) := by
      have hf : follow outer? (tail ++ rest) = .ok (kinds, tail ++ struck) :=
        follow_of_leads (by simpa [Script.reach, tail] using h)
      have := strike_append (Script.eventsAll between) 0 (.start (some kind) outer? :: (tail ++ rest))
      rw [Nat.add_zero] at this
      rw [this, strike_zero, hf]
      rfl
    obtain ⟨k, inner?, events, ks, hev, hks, hfollow⟩ :=
      follow_events (s := inner) hn (.inr ⟨_, rfl, hstrike⟩)
    refine ⟨k, inner?, events, ks ++ [kind], ?_, ?_, ?_⟩
    · rw [← hev]
      simp [Script.events, tail]
    · simp [Script.kinds, hks]
    · rw [hfollow]
      simp [Script.body, tail]

/-! ## Calls -/

theorem flush_eq {b : Builder} (hb : b.frames ≠ []) {pending : List Kind}
    (hp : ∀ k ∈ pending, k.isNode = true) :
    flush ⟨b, pending⟩ = .ok ⟨b.openAll pending, []⟩ := by
  simp only [flush, Builder.foldlM_enter_eq hb hp]
  rfl

theorem start_eq {b : Builder} (hb : b.frames ≠ []) (pending kinds : List Kind) :
    start ⟨b, pending⟩ kinds = .ok ⟨b, pending ++ kinds⟩ := by
  have hf : isFresh ⟨b, pending⟩ = false := by simp [isFresh, hb]
  simp [start, hf]

theorem finish_eq {b : Builder} (hb : b.frames ≠ []) (kind : Kind) (trees : List Tree) :
    finish ⟨(b.openAll [kind]).grow trees, []⟩ = .ok ⟨b.grow [.node kind trees], []⟩ := by
  have hf := Builder.frames_grow_ne_nil (Builder.frames_openAll_ne_nil hb [kind]) trees
  have hflush := @flush_eq _ hf [] (by simp)
  rw [Builder.openAll_nil] at hflush
  simp only [finish, hflush, bind, Except.bind, Builder.leave_eq hb, Fault.ofBuilder]

theorem finish_pending {b : Builder} (hb : b.frames ≠ []) {pending : List Kind} {kind : Kind}
    (hp : ∀ k ∈ pending, k.isNode = true) (hk : kind.isNode = true) :
    finish ⟨b, pending ++ [kind]⟩ = .ok ⟨(b.openAll pending).grow [.node kind []], []⟩ := by
  have hpk : ∀ k ∈ pending ++ [kind], k.isNode = true := by
    intro k h
    rcases List.mem_append.mp h with h | h
    · exact hp k h
    · rw [List.mem_singleton.mp h]; exact hk
  have hleave := Builder.leave_eq (Builder.frames_openAll_ne_nil hb pending) kind []
  rw [Builder.grow_nil, Builder.openAll_openAll] at hleave
  simp only [finish, flush_eq hb hpk, bind, Except.bind, hleave, Fault.ofBuilder]

/-- The builder after the first part of what waited has come: the blanks stay outside
of the nodes that waited. -/
def grown (b : Builder) (pending : List Kind) (lead : List Char) (trees : List Tree) : Replay :=
  ⟨((b.grow (Script.blankLeaf lead)).openAll pending).grow trees, []⟩

theorem token_eq {b : Builder} {pending : List Kind} {t : Token} (ht : t.kind.isNode = false)
    (hp : ∀ k ∈ pending, k.isNode = true) (h : b.Fits t.fullText) :
    token ⟨b, pending⟩ t = .ok (grown b pending t.leading [.leaf t.kind t.text]) := by
  have hlead : b.Fits t.leading := Builder.Fits.left h
  have htext : (b.grow (Script.blankLeaf t.leading)).Fits t.text :=
    Builder.Fits.right (by rwa [Script.textAll_blankLeaf])
  have hflush := flush_eq htext.frames hp
  have hleaf := Builder.leaf_eq ht (htext.openAll pending)
  simp only [token, Builder.blanks_eq hlead, Fault.ofBuilder, bind, Except.bind, hflush, hleaf, grown]

/-! ## Stretches of a replay -/

def Goes (events : List Event) (r r' : Replay) : Prop :=
  ∀ (fuel : Nat) (rest : List Event),
    run (events.length + fuel) (events ++ rest) r = run fuel rest r'

theorem Goes.nil (r : Replay) : Goes [] r r := fun fuel rest => by
  rw [List.length_nil, Nat.zero_add, List.nil_append]

theorem Goes.append {es fs : List Event} {r s t : Replay} (h : Goes es r s) (h' : Goes fs s t) :
    Goes (es ++ fs) r t := fun fuel rest => by
  rw [List.length_append, Nat.add_assoc, List.append_assoc, h, h']

theorem Goes.token {t : Token} {r r' : Replay} (h : r.token t = .ok r') : Goes [.token t] r r' :=
  fun fuel rest => by
    rw [List.length_singleton, Nat.add_comm, List.singleton_append, run, h]
    rfl

theorem Goes.finish {r r' : Replay} (h : r.finish = .ok r') : Goes [.finish] r r' := fun fuel rest => by
  rw [List.length_singleton, Nat.add_comm, List.singleton_append, run, h]
  rfl

theorem Goes.struck (outer? : Option Nat) (r : Replay) : Goes [.start none outer?] r r :=
  fun fuel rest => by
    rw [List.length_singleton, Nat.add_comm, List.singleton_append, run]

/-! ## Whole scripts -/

/-- The start of a node opens all nodes that begin there. -/
theorem goes_events {b : Builder} (hb : b.frames ≠ []) {pending : List Kind} {s : Script}
    (hs : s.isNode = true) {r : Replay} (h : Goes s.body ⟨b, pending ++ s.kinds.reverse⟩ r) :
    Goes (s.events none) ⟨b, pending⟩ r := fun fuel rest => by
  obtain ⟨kind, inner?, events, ks, hev, hks, hfollow⟩ :=
    @follow_events _ none rest _ _ hs (.inl ⟨rfl, rfl, rfl⟩)
  have hfuel : (s.events none).length + fuel = (s.body.length + fuel) + 1 := by
    rw [Script.length_events none hs]
    omega
  rw [hfuel, hev, run, hfollow, ← h fuel rest, hks]
  simp only [List.append_nil, bind, Except.bind, start_eq hb]

def grownAll (b : Builder) (pending : List Kind) : List Script → Replay
  | [] => ⟨b, pending⟩
  | s :: ss => grown b pending s.lead (Script.waiting (s :: ss))

theorem grownAll_nil_pending (b : Builder) (ss : List Script) :
    grownAll b [] ss = ⟨b.grow (Script.forest ss), []⟩ := by
  cases ss with
  | nil => simp [grownAll, Script.forest]
  | cons s ss => simp [grownAll, grown, Script.waiting, Script.forest, Builder.grow_grow]

theorem fits_grown {b : Builder} {s : Script} {more : List Char} (pending : List Kind)
    (h : b.Fits (s.text ++ more)) : (grown b pending s.lead [s.tree]).builder.Fits more := by
  rw [← Script.lead_append_text_tree, List.append_assoc] at h
  have hlead : (b.grow (Script.blankLeaf s.lead)).Fits (s.tree.text ++ more) :=
    Builder.Fits.right (by rwa [Script.textAll_blankLeaf])
  have htree : ((b.grow (Script.blankLeaf s.lead)).openAll pending).Fits (Tree.textAll [s.tree] ++ more) := by
    simpa [Tree.textAll] using hlead.openAll pending
  exact Builder.Fits.right htree

/-- Closing a node whose first part has come. -/
theorem finish_grown {b : Builder} (hb : b.frames ≠ []) (pending : List Kind) (kind : Kind)
    (lead : List Char) (trees : List Tree) :
    finish (grown b (pending ++ [kind]) lead trees) = .ok (grown b pending lead [.node kind trees]) := by
  have hf := Builder.frames_openAll_ne_nil
    (Builder.frames_grow_ne_nil hb (Script.blankLeaf lead)) pending
  rw [grown, ← Builder.openAll_openAll]
  exact finish_eq hf kind trees

theorem grown_cons (b : Builder) (pending : List Kind) (lead : List Char) (t : Tree) (us vs : List Tree) :
    grown b pending lead (t :: (us ++ vs)) =
      ⟨((grown b pending lead [t]).builder.grow us).grow vs, []⟩ := by
  simp [grown, Builder.grow_grow]

theorem isNode_pending {pending : List Kind} (hp : ∀ k ∈ pending, k.isNode = true) {kind : Kind}
    (hk : kind.isNode = true) : ∀ k ∈ pending ++ [kind], k.isNode = true := by
  intro k h
  rcases List.mem_append.mp h with h | h
  · exact hp k h
  · rw [List.mem_singleton.mp h]
    exact hk

mutual

/-- What is left of a node's log builds the node. -/
theorem goes_body : ∀ {s : Script}, s.isNode = true → s.Sound → ∀ {b : Builder} {pending : List Kind},
    (∀ k ∈ pending, k.isNode = true) → b.Fits s.text →
      Goes s.body ⟨b, pending ++ s.kinds.reverse⟩ (grown b pending s.lead [s.tree])
  | .node kind [], _, hs, b, pending, hp, hfit => by
    have := finish_pending hfit.frames hp hs.1
    simpa [Script.body, Script.eventsAll, Script.kinds, Script.lead, Script.leadAll, Script.tree,
      Script.waiting, grown, Script.blankLeaf] using Goes.finish this
  | .node kind (c :: cs), _, hs, b, pending, hp, hfit => by
    have hpk := isNode_pending hp hs.1
    have hchildren := @goes_eventsAll (c :: cs) hs.2 _ _ hpk (by simpa [Script.text] using hfit)
    exact hchildren.append (Goes.finish (finish_grown hfit.frames pending kind c.lead _))
  | .enclosing kind inner between after, hn, hs, b, pending, hp, hfit => by
    obtain ⟨hk, -, hinner, hbetween, hafter⟩ := hs
    have hpk := isNode_pending hp hk
    rw [Script.text, List.append_assoc] at hfit
    have hfit₁ := fits_grown (pending ++ [kind]) hfit
    have hfit₂ : ((grown b (pending ++ [kind]) inner.lead [inner.tree]).builder.grow
        (Script.forest between)).Fits (Script.textAll after) :=
      Builder.Fits.right (by rwa [Script.textAll_forest])
    have h₁ := goes_body (s := inner) hn hinner hpk hfit.left
    have h₂ := goes_row hbetween hfit₁.left
    have h₃ := goes_row hafter hfit₂
    have h₄ := Goes.finish (finish_grown hfit.frames pending kind inner.lead
      (inner.tree :: (Script.forest between ++ Script.forest after)))
    rw [grown_cons] at h₄
    -- the start of this node has been struck, as its inner node opened it
    have hall := h₁.append (h₂.append ((Goes.struck none _).append (h₃.append h₄)))
    simpa [Script.body, Script.kinds, Script.lead, Script.tree] using hall

/-- The log of scripts in a row builds their trees. -/
theorem goes_eventsAll : ∀ {ss : List Script}, Script.SoundAll ss → ∀ {b : Builder} {pending : List Kind},
    (∀ k ∈ pending, k.isNode = true) → b.Fits (Script.textAll ss) →
      Goes (Script.eventsAll ss) ⟨b, pending⟩ (grownAll b pending ss)
  | [], _, b, pending, _, _ => Goes.nil _
  | s :: ss, hs, b, pending, hp, hfit => by
    rw [Script.textAll] at hfit
    have hfirst : Goes (s.events none) ⟨b, pending⟩ (grown b pending s.lead [s.tree]) := by
      cases s with
      | token t => exact Goes.token (token_eq hs.1 hp hfit.left)
      | node kind children =>
        exact goes_events hfit.frames rfl (goes_body (s := .node kind children) rfl hs.1 hp hfit.left)
      | enclosing kind inner between after =>
        have hn : (Script.enclosing kind inner between after).isNode = true := hs.1.2.1
        exact goes_events hfit.frames hn (goes_body hn hs.1 hp hfit.left)
    have hall := hfirst.append (goes_row hs.2 (fits_grown pending hfit))
    simpa [Script.eventsAll, grownAll, grown, Script.waiting, Builder.grow_grow] using hall

theorem goes_row {ss : List Script} (hs : Script.SoundAll ss) {b : Builder}
    (hfit : b.Fits (Script.textAll ss)) :
    Goes (Script.eventsAll ss) ⟨b, []⟩ ⟨b.grow (Script.forest ss), []⟩ := by
  rw [← grownAll_nil_pending]
  exact goes_eventsAll hs (by simp) hfit

end

end Replay

def Builder.rooted (text : List Char) (kind : Kind) : Builder :=
  ⟨byteSize text, text, 0, [⟨kind, []⟩], none⟩

theorem Replay.start_root {kind : Kind} (hk : kind.isNode = true) (text : List Char) :
    (Replay.ofText text).start [kind] = .ok ⟨.rooted text kind, []⟩ := by
  simp [start, isFresh, ofText, Builder.ofText, Builder.enter, hk, Fault.ofBuilder, Builder.rooted,
    bind, Except.bind]

/-- The log of a node around scripts describes the tree with the trees of the scripts
below its root, which takes the blanks at its beginning as its own. -/
theorem Log.replay_node {log : Log} {kind : Kind} {children : List Script} {text : List Char}
    (hlog : log.events.toList = (Script.node kind children).events none)
    (hs : (Script.node kind children).Sound) (htext : Script.textAll children = text)
    (hsize : byteSize text ≤ maxOffset) :
    log.replay text = .ok (.node kind (Script.forest children)) := by
  have hfit : (Builder.rooted text kind).Fits (Script.textAll children) :=
    ⟨by simp [Builder.rooted], htext ▸ List.prefix_refl _, by simpa [Builder.rooted, htext] using hsize⟩
  have hfuel : log.events.size = ((Script.eventsAll children).length + 1) + 1 := by
    rw [← Array.length_toList, hlog]
    simp [Script.events]
  have hrun : Replay.run ((Script.eventsAll children).length + 1) (Script.eventsAll children ++ [.finish])
      ⟨.rooted text kind, []⟩ = Replay.finish ⟨(Builder.rooted text kind).grow (Script.forest children), []⟩ := by
    rw [Replay.goes_row hs.2 hfit, Replay.run]
    cases Replay.finish _ <;> rfl
  have hroot := Replay.start_root hs.1 text
  have hsizes : byteSize (Tree.textAll (Script.forest children)) = byteSize text := by
    rw [Script.textAll_forest, htext]
  simp only [Log.replay, hfuel, hlog, Script.events, Replay.run, Replay.follow, bind, Except.bind,
    List.reverse_singleton, hroot, hrun]
  simp [Replay.finish, Replay.flush, Builder.leave, Builder.grow, Builder.rooted, Fault.ofBuilder,
    Builder.finish, hsizes, bind, Except.bind, List.foldlM, pure, Except.pure]

end Dofile
