import Dofile.Log.Replay

/-!
# Scripts

A script says what a log means: tokens, nodes around scripts, and nodes that
enclose a node that was closed before them, with what was logged between the two.
`Script.events` is the log of a script, with each enclosed start linked to that of
the node around it, and `Script.tree` the tree that it describes.
-/

namespace Dofile

theorem Tree.textAll_append (as bs : List Tree) :
    Tree.textAll (as ++ bs) = Tree.textAll as ++ Tree.textAll bs := by
  induction as with
  | nil => simp [Tree.textAll]
  | cons a as ih => simp [Tree.textAll, ih]

inductive Script where
  | token (t : Token)
  | node (kind : Kind) (children : List Script)
  | enclosing (kind : Kind) (inner : Script) (between after : List Script)

namespace Script

/-! ## Logs -/

mutual

/-- The log of a script whose last start is linked as given. -/
def events (outer? : Option Nat) : Script → List Event
  | .token t => [.token t]
  | .node kind children => .start (some kind) outer? :: (eventsAll children ++ [.finish])
  | .enclosing kind inner between after =>
    inner.events (some (inner.reach + (eventsAll between).length)) ++ eventsAll between ++
      .start (some kind) outer? :: (eventsAll after ++ [.finish])

/-- The number of events from the last start on. -/
def reach : Script → Nat
  | .token _ => 0
  | .node _ children => (eventsAll children).length + 2
  | .enclosing _ _ _ after => (eventsAll after).length + 2

def eventsAll : List Script → List Event
  | [] => []
  | s :: ss => s.events none ++ eventsAll ss

end

theorem eventsAll_append (ss ts : List Script) : eventsAll (ss ++ ts) = eventsAll ss ++ eventsAll ts := by
  induction ss with
  | nil => simp [eventsAll]
  | cons s ss ih => simp [eventsAll, ih]

/-! ## Texts and trees -/

mutual

def text : Script → List Char
  | .token t => t.fullText
  | .node _ children => textAll children
  | .enclosing _ inner between after => inner.text ++ textAll between ++ textAll after

def textAll : List Script → List Char
  | [] => []
  | s :: ss => s.text ++ textAll ss

end

theorem textAll_append (ss ts : List Script) : textAll (ss ++ ts) = textAll ss ++ textAll ts := by
  induction ss with
  | nil => simp [textAll]
  | cons s ss ih => simp [textAll, ih]

mutual

/-- The blanks before the first token, which stay outside of the nodes that begin there. -/
def lead : Script → List Char
  | .token t => t.leading
  | .node _ children => leadAll children
  | .enclosing _ inner _ _ => inner.lead

def leadAll : List Script → List Char
  | [] => []
  | s :: _ => s.lead

end

def blankLeaf : List Char → List Tree
  | [] => []
  | c :: blanks => [.leaf .whitespace (c :: blanks)]

mutual

def tree : Script → Tree
  | .token t => .leaf t.kind t.text
  | .node kind children => .node kind (waiting children)
  | .enclosing kind inner between after => .node kind (inner.tree :: (forest between ++ forest after))

def waiting : List Script → List Tree
  | [] => []
  | s :: ss => s.tree :: forest ss

def forest : List Script → List Tree
  | [] => []
  | s :: ss => blankLeaf s.lead ++ s.tree :: forest ss

end

theorem forest_eq (ss : List Script) : forest ss = blankLeaf (leadAll ss) ++ waiting ss := by
  cases ss <;> simp [forest, leadAll, waiting, blankLeaf]

theorem forest_append (ss ts : List Script) : forest (ss ++ ts) = forest ss ++ forest ts := by
  induction ss with
  | nil => simp [forest]
  | cons s ss ih => simp [forest, ih]

theorem textAll_blankLeaf (blanks : List Char) : Tree.textAll (blankLeaf blanks) = blanks := by
  cases blanks <;> simp [blankLeaf, Tree.textAll, Tree.text]

mutual

/-- The tree of a script holds its text, the blanks before it apart. -/
theorem lead_append_text_tree : ∀ s : Script, s.lead ++ s.tree.text = s.text
  | .token t => by simp [lead, tree, text, Tree.text, Token.fullText]
  | .node _ children => by
    simp only [lead, tree, text, Tree.text]
    exact leadAll_append_textAll_waiting children
  | .enclosing _ inner between after => by
    simp only [lead, tree, text, Tree.text, Tree.textAll, Tree.textAll_append]
    rw [← List.append_assoc, lead_append_text_tree inner, textAll_forest between, textAll_forest after,
      List.append_assoc]

theorem leadAll_append_textAll_waiting : ∀ ss : List Script,
    leadAll ss ++ Tree.textAll (waiting ss) = textAll ss
  | [] => by simp [leadAll, waiting, textAll, Tree.textAll]
  | s :: ss => by
    simp only [leadAll, waiting, textAll, Tree.textAll]
    rw [← List.append_assoc, lead_append_text_tree s, textAll_forest ss]

theorem textAll_forest : ∀ ss : List Script, Tree.textAll (forest ss) = textAll ss
  | [] => by simp [forest, textAll, Tree.textAll]
  | s :: ss => by
    simp only [forest, textAll, Tree.textAll_append, Tree.textAll, textAll_blankLeaf]
    rw [← List.append_assoc, lead_append_text_tree s, textAll_forest ss]

end

/-! ## Sound scripts -/

def isNode : Script → Bool
  | .token _ => false
  | .node .. => true
  | .enclosing _ inner _ _ => inner.isNode

mutual

def Sound : Script → Prop
  | .token t => t.kind.isNode = false
  | .node kind children => kind.isNode = true ∧ SoundAll children
  | .enclosing kind inner between after =>
    kind.isNode = true ∧ inner.isNode = true ∧ inner.Sound ∧ SoundAll between ∧ SoundAll after

def SoundAll : List Script → Prop
  | [] => True
  | s :: ss => s.Sound ∧ SoundAll ss

end

theorem soundAll_append (ss ts : List Script) : SoundAll (ss ++ ts) ↔ SoundAll ss ∧ SoundAll ts := by
  induction ss with
  | nil => simp [SoundAll]
  | cons s ss ih => simp [SoundAll, ih, and_assoc]

end Script

end Dofile
