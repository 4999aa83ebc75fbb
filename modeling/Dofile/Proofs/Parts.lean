import Dofile.Proofs.Transport
import Dofile.Tree.Place

/-!
# Parts of a tree and where they stand

The parts of an element are the trees below it with their spans. They follow from the
tree and where it begins, so the parts of children side by side can be told from
their trees, and a tree that is found further on has its parts moved as far.
-/

namespace Dofile

namespace Place

def region (p : Place) : Tree × Span := (p.tree, p.span)

def parts (p : Place) : List (Tree × Span) := p.elements.map region

def regionBehind (size : Nat) (r : Tree × Span) : Tree × Span := (r.1, r.2.map (· + size))

def partsOf (visits : List Visit) : List (Tree × Span) := (visits.filterMap Visit.element?).map region

theorem partsOf_append (us vs : List Visit) : partsOf (us ++ vs) = partsOf us ++ partsOf vs := by
  simp [partsOf]

theorem region_behind (size : Nat) (t : Tree) (start : Nat) (above below : List Crumb) :
    region ⟨t, start + size, above⟩ = regionBehind size (region ⟨t, start, below⟩) := by
  have hstop : start + size + t.size = start + t.size + size := Nat.add_right_comm ..
  simp [region, regionBehind, span, stop, Span.map, hstop]

mutual

/-- The parts of a tree do not depend on the way up, and they move with the tree. -/
theorem partsOf_walkTree (size : Nat) : ∀ (t : Tree) (start : Nat) (above below : List Crumb),
    partsOf (walkTree (start + size) above t) = (partsOf (walkTree start below t)).map (regionBehind size)
  | .leaf k text, start, above, below => by
    have h := region_behind size (.leaf k text) start above below
    simp [walkTree, partsOf, Visit.element?, h]
  | .node k ts, start, above, below => by
    have h := region_behind size (.node k ts) start above below
    have hts := partsOf_walkTrees size ts k k (start + size) start start above below [] []
    simp only [walkTree, partsOf, List.filterMap_cons, Visit.element?, List.filterMap_append,
      List.filterMap_nil, List.append_nil, List.map_cons, h]
    exact congrArg _ hts

theorem partsOf_walkTrees (size : Nat) : ∀ (ts : List Tree) (kind kind' : Kind) (start start' pos : Nat)
    (above below : List Crumb) (before before' : List Tree),
    partsOf (walkTrees kind start above (pos + size) before ts) =
      (partsOf (walkTrees kind' start' below pos before' ts)).map (regionBehind size)
  | [], _, _, _, _, _, _, _, _, _ => rfl
  | t :: ts, kind, kind', start, start', pos, above, below, before, before' => by
    have hpos : pos + size + t.size = pos + t.size + size := Nat.add_right_comm ..
    rw [walkTrees, walkTrees, partsOf_append, partsOf_append, List.map_append, hpos,
      partsOf_walkTree size t pos _ (⟨kind', start', before', ts⟩ :: below),
      partsOf_walkTrees size ts kind kind' start start' _ above below _ (t :: before')]

end

theorem parts_behind (size : Nat) (t : Tree) (start : Nat) (above below : List Crumb) :
    parts ⟨t, start + size, above⟩ = (parts ⟨t, start, below⟩).map (regionBehind size) :=
  partsOf_walkTree size t start above below

def partsFrom (pos : Nat) : List Tree → List (List (Tree × Span))
  | [] => []
  | t :: ts => parts ⟨t, pos, []⟩ :: partsFrom (pos + t.size) ts

theorem regionBehind_zero (r : Tree × Span) : regionBehind 0 r = r := rfl

theorem map_parts_placesFrom (kind : Kind) (start : Nat) (above : List Crumb) : ∀ (pos : Nat) (before ts : List Tree),
    (placesFrom kind start above pos before ts).map parts = partsFrom pos ts
  | _, _, [] => rfl
  | pos, before, t :: ts => by
    -- the way up plays no part: the tree may as well be a root
    have hparts := parts_behind 0 t pos (⟨kind, start, before, ts⟩ :: above) []
    rw [List.map_congr_left fun r _ => regionBehind_zero r, List.map_id'] at hparts
    rw [placesFrom, List.map_cons, partsFrom, map_parts_placesFrom kind start above _ (t :: before) ts]
    exact congrArg (· :: _) hparts

theorem partsFrom_append (pos : Nat) (ts us : List Tree) :
    partsFrom pos (ts ++ us) = partsFrom pos ts ++ partsFrom (pos + Tree.sizeAll ts) us := by
  induction ts generalizing pos with
  | nil => rfl
  | cons t ts ih => rw [List.cons_append, partsFrom, partsFrom, ih, Tree.sizeAll, Nat.add_assoc]; rfl

theorem partsFrom_behind (size pos : Nat) (ts : List Tree) :
    partsFrom (pos + size) ts = (partsFrom pos ts).map fun ps => ps.map (regionBehind size) := by
  induction ts generalizing pos with
  | nil => rfl
  | cons t ts ih =>
    rw [partsFrom, partsFrom, List.map_cons, parts_behind size t pos [] [], ← ih, Nat.add_right_comm]

theorem map_tree_placesFrom (kind : Kind) (start : Nat) (above : List Crumb) (pos : Nat) (before ts : List Tree) :
    (placesFrom kind start above pos before ts).map tree = ts := by
  induction ts generalizing pos before with
  | nil => rfl
  | cons t ts ih => rw [placesFrom, List.map_cons, ih]

theorem map_tree_children (kind : Kind) (ts : List Tree) : (ofRoot (.node kind ts)).children.map tree = ts :=
  map_tree_placesFrom ..

theorem map_parts_children (kind : Kind) (ts : List Tree) :
    (ofRoot (.node kind ts)).children.map parts = partsFrom 0 ts := map_parts_placesFrom ..

end Place

/-! ## Trees with other texts -/

namespace Tree

mutual

def mapText (f : List Char → List Char) : Tree → Tree
  | .leaf k text => .leaf k (f text)
  | .node k ts => .node k (mapTextAll f ts)

def mapTextAll (f : List Char → List Char) : List Tree → List Tree
  | [] => []
  | t :: ts => t.mapText f :: mapTextAll f ts

end

theorem mapTextAll_append (f : List Char → List Char) (ts us : List Tree) :
    mapTextAll f (ts ++ us) = mapTextAll f ts ++ mapTextAll f us := by
  induction ts with
  | nil => rfl
  | cons t ts ih => simp [mapTextAll, ih]

mutual

theorem mapText_id : ∀ t : Tree, t.mapText id = t
  | .leaf .. => rfl
  | .node _ ts => by rw [mapText, mapTextAll_id ts]

theorem mapTextAll_id : ∀ ts : List Tree, mapTextAll id ts = ts
  | [] => rfl
  | t :: ts => by rw [mapTextAll, mapText_id t, mapTextAll_id ts]

end

end Tree

/-! ## Trees of items -/

section
variable {r : List Char → List Char} (hr : ∀ text, r text = [] ↔ text = [])

namespace Script

def shape (s : Script) : List Char × Tree := (s.lead, s.tree)

def shapeIn (r : List Char → List Char) (s : Script) : List Char × Tree := (r s.lead, s.tree.mapText r)

include hr

theorem blankLeaf_map (blanks : List Char) : blankLeaf (r blanks) = Tree.mapTextAll r (blankLeaf blanks) := by
  cases blanks with
  | nil => rw [(hr []).mpr rfl]; rfl
  | cons c blanks =>
    obtain ⟨d, text, htext⟩ := List.exists_cons_of_ne_nil (fun h => List.cons_ne_nil c blanks ((hr _).mp h))
    simp [blankLeaf, Tree.mapTextAll, Tree.mapText, htext]

theorem forest_congr {ss ts : List Script} (h : ts.map shape = ss.map (shapeIn r)) :
    forest ts = Tree.mapTextAll r (forest ss) ∧ waiting ts = Tree.mapTextAll r (waiting ss) ∧
      leadAll ts = r (leadAll ss) := by
  induction ss generalizing ts with
  | nil =>
    rw [List.map_eq_nil_iff.mp h]
    exact ⟨rfl, rfl, ((hr []).mpr rfl).symm⟩
  | cons s ss ih =>
    cases ts with
    | nil => cases h
    | cons t ts =>
      simp only [List.map_cons, List.cons.injEq, shape, shapeIn, Prod.mk.injEq] at h
      obtain ⟨⟨hlead, htree⟩, hrest⟩ := h
      obtain ⟨hforest, -, -⟩ := ih hrest
      simp [forest, waiting, leadAll, hlead, htree, hforest, blankLeaf_map hr, Tree.mapTextAll,
        Tree.mapTextAll_append]

theorem shape_node {kind : Kind} {ss ts : List Script} (h : ts.map shape = ss.map (shapeIn r)) :
    (node kind ts).shape = (node kind ss).shapeIn r := by
  obtain ⟨-, hwaiting, hlead⟩ := forest_congr hr h
  simp [shape, shapeIn, lead, tree, hwaiting, hlead, Tree.mapText]

end Script

namespace Item

variable {f : Lexer → Lexer} {g : Nat → Nat}

def Respells (r : List Char → List Char) (f : Lexer → Lexer) (taken : List (Lexer × Kind)) : Prop :=
  ∀ t ∈ taken, (f t.1).ahead.leading = r t.1.ahead.leading ∧ (f t.1).ahead.text = r t.1.ahead.text

mutual

theorem shape_scripts (hr : ∀ text, r text = [] ↔ text = []) : ∀ i : Item, Respells r f i.taken →
    (i.map f g).scripts.map Script.shape = i.scripts.map (Script.shapeIn r)
  | .token l kind, h => by
    obtain ⟨hleading, htext⟩ := h (l, kind) (by simp [taken])
    simp [map, scripts, Script.shape, Script.shapeIn, Script.lead, Script.tree, Tree.mapText, hleading, htext]
  | .found _, _ => rfl
  | .node kind items, h => by
    have hitems := shape_scriptsAll hr items h
    simp [map, scripts, Script.shape_node hr hitems]
  | .enclosed kind items, h => by
    have hnode := @Script.shape_node r hr kind _ _ (shape_scriptsAll hr items h)
    simp only [Script.shape, Script.shapeIn, Prod.mk.injEq] at hnode
    simp [map, scripts, Script.shape, Script.shapeIn, Script.lead, Script.tree, Script.forest, Tree.mapText,
      Tree.mapTextAll] at hnode ⊢
    exact hnode

theorem shape_scriptsAll (hr : ∀ text, r text = [] ↔ text = []) : ∀ items : List Item, Respells r f (takenAll items) →
    (scriptsAll (mapAll f g items)).map Script.shape = (scriptsAll items).map (Script.shapeIn r)
  | [], _ => rfl
  | i :: is, h => by
    have hi := shape_scripts hr i fun t ht => h t (List.mem_append_left _ ht)
    have his := shape_scriptsAll hr is fun t ht => h t (List.mem_append_right _ ht)
    rw [mapAll, scriptsAll, scriptsAll, List.map_append, List.map_append, hi, his]

end

include hr in
/-- Items at other places become trees of the same shape, with the texts that their tokens have there. -/
theorem forest_mapAll {items : List Item} (h : Respells r f (takenAll items)) :
    Script.forest (scriptsAll (mapAll f g items)) = Tree.mapTextAll r (Script.forest (scriptsAll items)) :=
  (Script.forest_congr hr (shape_scriptsAll hr items h)).1

end Item

end

namespace Item

section
variable {f : Lexer → Lexer} {g : Nat → Nat}

theorem forest_mapAll_id {items : List Item} (h : Respells id f (takenAll items)) :
    Script.forest (scriptsAll (mapAll f g items)) = Script.forest (scriptsAll items) := by
  rw [forest_mapAll (r := id) (fun _ => Iff.rfl) h, Tree.mapTextAll_id]

mutual

theorem findings_map : ∀ i : Item, (i.map f g).findings = i.findings.map (Finding.map g)
  | .token .. => rfl
  | .found _ => rfl
  | .node _ items => findingsAll_mapAll items
  | .enclosed _ items => findingsAll_mapAll items

theorem findingsAll_mapAll : ∀ items : List Item,
    findingsAll (mapAll f g items) = (findingsAll items).map (Finding.map g)
  | [] => rfl
  | i :: is => by rw [mapAll, findingsAll, findingsAll, List.map_append, findings_map i, findingsAll_mapAll is]

end

end

end Item

end Dofile
