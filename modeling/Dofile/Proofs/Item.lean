import Dofile.Proofs.Replay
import Dofile.Proofs.Run

/-!
# Items

What a run does between two places of the text: it takes tokens, each where the
lexer stood, records findings, and builds nodes around both. `Run.emit` is the run
after some items, and every step of a run is one of its cases.
-/

namespace Dofile

inductive Item where
  /-- The token ahead of a lexer, taken under a kind. -/
  | token (lexer : Lexer) (kind : Kind)
  | found (finding : Finding)
  | node (kind : Kind) (items : List Item)
  /-- A node that was enclosed in a problem node once it was closed. -/
  | enclosed (kind : Kind) (items : List Item)

def Lexer.item (l : Lexer) : Item := .token l l.kind

namespace Item

mutual

def scripts : Item → List Script
  | .token l kind => [.token { l.ahead with kind }]
  | .found _ => []
  | .node kind items => [.node kind (scriptsAll items)]
  | .enclosed kind items => [.enclosing .error (.node kind (scriptsAll items)) [] []]

def scriptsAll : List Item → List Script
  | [] => []
  | i :: is => i.scripts ++ scriptsAll is

end

mutual

def findings : Item → List Finding
  | .token .. => []
  | .found f => [f]
  | .node _ items => findingsAll items
  | .enclosed _ items => findingsAll items

def findingsAll : List Item → List Finding
  | [] => []
  | i :: is => i.findings ++ findingsAll is

end

mutual

def taken : Item → List (Lexer × Kind)
  | .token l kind => [(l, kind)]
  | .found _ => []
  | .node _ items => takenAll items
  | .enclosed _ items => takenAll items

def takenAll : List Item → List (Lexer × Kind)
  | [] => []
  | i :: is => i.taken ++ takenAll is

end

theorem takenAll_append (is js : List Item) : takenAll (is ++ js) = takenAll is ++ takenAll js := by
  induction is with
  | nil => simp [takenAll]
  | cons i is ih => simp [takenAll, ih]

theorem scriptsAll_append (is js : List Item) : scriptsAll (is ++ js) = scriptsAll is ++ scriptsAll js := by
  induction is with
  | nil => simp [scriptsAll]
  | cons i is ih => simp [scriptsAll, ih]

theorem findingsAll_append (is js : List Item) :
    findingsAll (is ++ js) = findingsAll is ++ findingsAll js := by
  induction is with
  | nil => simp [findingsAll]
  | cons i is ih => simp [findingsAll, ih]

def eventsAll (items : List Item) : List Event := Script.eventsAll (scriptsAll items)

theorem eventsAll_append (is js : List Item) : eventsAll (is ++ js) = eventsAll is ++ eventsAll js := by
  rw [eventsAll, scriptsAll_append, Script.eventsAll_append]
  rfl

end Item

/-! ## Logs -/

namespace Log

theorem ext_toList {a b : Log} (h : a.events.toList = b.events.toList) : a = b := by
  obtain ⟨a⟩ := a
  obtain ⟨b⟩ := b
  simp only at h
  rw [Array.toList_inj.mp h]

def append (log : Log) (events : List Event) : Log := ⟨log.events ++ events.toArray⟩

@[simp] theorem append_nil (log : Log) : log.append [] = log := by simp [append]

theorem append_append (log : Log) (es fs : List Event) :
    (log.append es).append fs = log.append (es ++ fs) := by
  simp [append]

theorem push_eq (log : Log) (e : Event) : log.push e = log.append [e] := by
  apply ext_toList
  simp [push, append]

theorem mark_append (log : Log) (es : List Event) : (log.append es).mark = log.mark + es.length := by
  simp [mark, append]

theorem isStart_append (log : Log) (kind? : Option Kind) (outer? : Option Nat) (es : List Event) :
    (log.append (.start kind? outer? :: es)).isStart log.mark = true := by
  simp [isStart, mark, append]

theorem modify_append (log : Log) (e : Event) (es : List Event) (change : Event → Event) :
    (log.append (e :: es)).modify log.mark change = log.append (change e :: es) := by
  apply ext_toList
  simp only [modify, append, mark, Array.toList_modify, Array.toList_append]
  rw [← Array.length_toList, List.modify_eq_take_drop]
  simp

theorem close_append (log : Log) (kind? : Option Kind) (outer? : Option Nat) (es : List Event) (kind : Kind) :
    (log.append (.start kind? outer? :: es)).close log.mark kind =
      log.append (.start (some kind) outer? :: (es ++ [.finish])) := by
  rw [close, modify_append, push_eq, append_append]
  rfl

theorem enclose_append (log : Log) (kind? : Option Kind) (outer? : Option Nat) (es : List Event) :
    (log.append (.start kind? outer? :: es)).enclose log.mark =
      log.append (.start kind? (some (es.length + 1)) :: (es ++ [.start none none])) := by
  have hdistance : log.mark + (es.length + 1) - log.mark = es.length + 1 := by omega
  rw [enclose, mark_append, List.length_cons, hdistance, modify_append, start, push_eq, append_append]
  rfl

end Log

/-! ## Runs -/

namespace Run

/-- The run after some items, with the lexer that they lead to. -/
def emit (s : Run) (items : List Item) (l : Lexer) : Run :=
  { s with
    lexer := l
    log := s.log.append (Item.eventsAll items)
    findings := s.findings ++ (Item.findingsAll items).toArray }

@[simp] theorem emit_lexer (s : Run) (items : List Item) (l : Lexer) : (s.emit items l).lexer = l := rfl

theorem emit_nil (s : Run) : s.emit [] s.lexer = s := by
  simp [emit, Item.eventsAll, Item.scriptsAll, Script.eventsAll, Item.findingsAll]

theorem emit_emit (s : Run) (is js : List Item) (l l' : Lexer) :
    (s.emit is l).emit js l' = s.emit (is ++ js) l' := by
  simp [emit, Log.append_append, Item.eventsAll_append, Item.findingsAll_append]

theorem require_of_true (s : Run) {holds : Bool} (h : holds = true) (b : Breach) : s.require holds b = s := by
  simp [require, h]

theorem expect_of_isAt {s : Run} {k : Kind} (h : s.lexer.kind = k) : s.expect k = s :=
  s.require_of_true ((isAt_iff s k).mpr h) _

/-! ## Single steps -/

theorem takeAs_emit {s : Run} (h : s.lexer.kind ≠ .eof) (kind : Kind) (mode : Mode) :
    s.takeAs kind mode = s.emit [.token s.lexer kind] (s.lexer.next mode) := by
  rw [takeAs_eq h]
  simp [emit, Item.eventsAll, Item.scriptsAll, Item.scripts, Script.eventsAll, Script.events,
    Item.findingsAll, Item.findings, Log.token, Log.push_eq]

theorem takeIn_emit {s : Run} (h : s.lexer.kind ≠ .eof) (mode : Mode) :
    s.takeIn mode = s.emit [s.lexer.item] (s.lexer.next mode) := takeAs_emit h ..

theorem takeEnd_emit {s : Run} (h : s.lexer.kind = .eof) :
    s.takeEnd = s.emit [s.lexer.item] s.lexer := by
  rw [takeEnd, expect_of_isAt h]
  simp [emit, Item.eventsAll, Item.scriptsAll, Item.scripts, Script.eventsAll, Script.events,
    Item.findingsAll, Item.findings, Log.token, Log.push_eq, Lexer.item, ahead, Lexer.kind]

theorem relex_emit (s : Run) (mode : Mode) : s.relex mode = s.emit [] (s.lexer.relex mode) := by
  simp [relex, emit, Item.eventsAll, Item.scriptsAll, Script.eventsAll, Item.findingsAll]

theorem reportAt_emit (s : Run) (p : Problem) {span : Span} (h : span.start ≤ span.stop) :
    s.reportAt p span = s.emit [.found ⟨p, span⟩] s.lexer := by
  rw [reportAt, require_of_true _ (by simpa using h)]
  simp [emit, Item.eventsAll, Item.scriptsAll, Item.scripts, Script.eventsAll, Item.findingsAll,
    Item.findings]

theorem report_emit (s : Run) (p : Problem) :
    s.report p = s.emit [.found ⟨p, s.lexer.ahead.span⟩] s.lexer :=
  s.reportAt_emit p (Nat.le_add_right ..)

/-! ## Nodes -/

theorem close_emit (s : Run) (items : List Item) (l : Lexer) (kind : Kind) :
    (s.start.emit items l).close s.mark kind = s.emit [.node kind items] l := by
  have hlog : (s.start.emit items l).log = s.log.append (.start none none :: Item.eventsAll items) := by
    simp only [emit, start, Log.start, Log.push_eq, Log.append_append]
    rfl
  rw [close, require_of_true _ (by rw [hlog]; exact Log.isStart_append ..), mark, hlog, Log.close_append]
  simp [emit, start, Item.eventsAll, Item.scriptsAll, Item.scripts, Script.eventsAll, Script.events,
    Item.findingsAll, Item.findings]

theorem closeInError_emit (s : Run) (items : List Item) (l : Lexer) (kind : Kind) :
    (s.start.emit items l).closeInError s.mark kind = s.emit [.enclosed kind items] l := by
  have hlog : (s.emit [.node kind items] l).log =
      s.log.append (.start (some kind) none :: (Item.eventsAll items ++ [.finish])) := by
    simp [emit, Item.eventsAll, Item.scriptsAll, Item.scripts, Script.eventsAll, Script.events]
  -- the start that encloses the node comes last, and that of the node is linked to it
  have hmark : (s.emit [.node kind items] l).mark =
      (s.log.append (.start (some kind) (some ((Item.eventsAll items).length + 2)) ::
        (Item.eventsAll items ++ [.finish]))).mark := by
    simp only [mark, hlog, Log.mark_append, List.length_cons]
  have henclose : (s.emit [.node kind items] l).enclose s.mark =
      { s.emit [.node kind items] l with
        log := (s.log.append (.start (some kind) (some ((Item.eventsAll items).length + 2)) ::
          (Item.eventsAll items ++ [.finish]))).append [.start none none] } := by
    rw [enclose, require_of_true _ (by rw [hlog]; exact Log.isStart_append ..), mark, hlog,
      Log.enclose_append, Log.append_append]
    simp
  rw [closeInError, close_emit, henclose, hmark, close, require_of_true _ (Log.isStart_append ..)]
  simp only
  rw [Log.close_append, Log.append_append]
  simp [emit, Item.eventsAll, Item.scriptsAll, Item.scripts, Script.eventsAll, Script.events, Script.reach,
    Item.findingsAll, Item.findings]

/-- A rule that takes items takes them within a node. -/
theorem node_emit {s : Run} {rule : Run → Run} {items : List Item} {l : Lexer}
    (h : rule s.start = s.start.emit items l) (kind : Kind) : s.node kind rule = s.emit [.node kind items] l := by
  rw [node, h]
  exact close_emit ..

end Run

end Dofile
