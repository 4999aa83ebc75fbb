import Dofile.Proofs.Context
import Dofile.Proofs.Parts
import Dofile.Proofs.Walk
import Mathlib.Data.List.Basic

/-!
# Regions

A region is a tree with the span where it stands. The elements of a tree are regions in a
row, and those of the trees of items follow from the items and from where the first of
them stands.
-/

namespace Dofile

namespace Place

def regionsFrom (pos : Nat) (ts : List Tree) : List (Tree × Span) := (partsFrom pos ts).flatten

theorem regionsFrom_append (pos : Nat) (ts us : List Tree) :
    regionsFrom pos (ts ++ us) = regionsFrom pos ts ++ regionsFrom (pos + Tree.sizeAll ts) us := by
  simp [regionsFrom, partsFrom_append]

theorem regionsFrom_singleton (pos : Nat) (t : Tree) : regionsFrom pos [t] = parts ⟨t, pos, []⟩ := by
  simp [regionsFrom, partsFrom]

theorem parts_eq (p : Place) : p.parts = region p :: p.children.flatMap parts := by
  rw [parts, elements_eq, List.map_cons, List.map_flatMap]
  rfl

theorem parts_leaf (kind : Kind) (text : List Char) (start : Nat) (above : List Crumb) :
    parts ⟨.leaf kind text, start, above⟩ = [(.leaf kind text, ⟨start, start + byteSize text⟩)] := by
  rw [parts_eq]
  rfl

theorem parts_node (kind : Kind) (ts : List Tree) (start : Nat) (above : List Crumb) :
    parts ⟨.node kind ts, start, above⟩ =
      (.node kind ts, ⟨start, start + Tree.sizeAll ts⟩) :: regionsFrom start ts := by
  rw [parts_eq, List.flatMap_def]
  exact congrArg (_ :: List.flatten ·) (map_parts_placesFrom kind start above start [] ts)

theorem filter_children {p : Place} {f : Place → List Place} {choice : Tree × Span → Bool}
    (h : ∀ c ∈ p.children, (f c).map region = c.parts.filter choice) :
    (p.children.flatMap f).map region = (p.children.flatMap parts).filter choice := by
  rw [List.map_flatMap, List.filter_flatMap, List.flatMap_def, List.flatMap_def, List.map_congr_left h]

theorem map_region_leaves (p : Place) : p.leaves.map region = p.parts.filter (·.1.isLeaf) := by
  induction p using induct with
  | step p ih =>
    have hchildren := filter_children ih
    rw [parts_eq]
    cases h : p.tree.isLeaf with
    | true => simp [leaves_leaf h, walk_leaf h, region, h]
    | false => rw [leaves_node h, hchildren, List.filter_cons_of_neg (by simp [region, h])]

theorem map_region_nodes (p : Place) : p.nodes.map region = p.parts.filter (!·.1.isLeaf) := by
  induction p using induct with
  | step p ih =>
    have hchildren := filter_children ih
    rw [parts_eq, nodes_eq, List.map_append, hchildren, List.filter_cons]
    unfold isLeaf
    cases h : p.tree.isLeaf <;> simp [region, h]

def rowFrom (pos : Nat) : List Tree → List (Tree × Span)
  | [] => []
  | t :: ts => (t, ⟨pos, pos + t.size⟩) :: rowFrom (pos + t.size) ts

theorem rowFrom_append (pos : Nat) (ts us : List Tree) :
    rowFrom pos (ts ++ us) = rowFrom pos ts ++ rowFrom (pos + Tree.sizeAll ts) us := by
  induction ts generalizing pos with
  | nil => rfl
  | cons t ts ih => rw [List.cons_append, rowFrom, rowFrom, ih, Tree.sizeAll, Nat.add_assoc]; rfl

theorem map_region_placesFrom (kind : Kind) (start : Nat) (above : List Crumb) (pos : Nat) (before ts : List Tree) :
    (placesFrom kind start above pos before ts).map region = rowFrom pos ts := by
  induction ts generalizing pos before with
  | nil => rfl
  | cons t ts ih => rw [placesFrom, List.map_cons, ih]; rfl

end Place

/-! ## Regions of items -/

namespace Item

/-- The regions of the trees of some items that begin where `l` stands, without the blanks. -/
def regions (l : Lexer) (items : List Item) : List (Tree × Span) :=
  (Place.regionsFrom l.offset (Script.forest (scriptsAll items))).filter (·.1.kind != .whitespace)

theorem regions_append {l m : Lexer} {is js : List Item} (h : Account l is m) :
    regions l (is ++ js) = regions l is ++ regions m js := by
  have hsize : Tree.sizeAll (Script.forest (scriptsAll is)) = byteSize (Script.textAll (scriptsAll is)) := by
    rw [Tree.sizeAll_eq_byteSize, Script.textAll_forest]
  rw [regions, scriptsAll_append, Script.forest_append, Place.regionsFrom_append, List.filter_append, hsize,
    ← h.starts.2]
  rfl

theorem regionsFrom_blankLeaf (pos : Nat) (blanks : List Char) (ts : List Tree) :
    (Place.regionsFrom pos (Script.blankLeaf blanks ++ ts)).filter (·.1.kind != .whitespace) =
      (Place.regionsFrom (pos + byteSize blanks) ts).filter (·.1.kind != .whitespace) := by
  cases blanks with
  | nil => rfl
  | cons c blanks =>
    rw [Place.regionsFrom_append, Script.blankLeaf, Place.regionsFrom_singleton, Place.parts_leaf,
      List.filter_append]
    simp [Tree.kind, Tree.sizeAll, Tree.size]

theorem regions_single (l : Lexer) {i : Item} {s : Script} (h : i.scripts = [s]) :
    regions l [i] = (Place.parts ⟨s.tree, l.offset + byteSize s.lead, []⟩).filter
    (·.1.kind != .whitespace) := by
  have hforest : Script.forest (scriptsAll [i]) = Script.blankLeaf s.lead ++ [s.tree] := by
    simp [scriptsAll, h, Script.forest]
  rw [regions, hforest, regionsFrom_blankLeaf, Place.regionsFrom_singleton]

theorem regions_token (l : Lexer) {kind : Kind} (hk : kind ≠ .whitespace) :
    regions l [.token l kind] = [(.leaf kind l.ahead.text, l.ahead.span)] := by
  rw [regions_single l rfl, Script.tree, Place.parts_leaf]
  simp [Tree.kind, hk]
  rfl

def startOf (l : Lexer) (items : List Item) : Nat := l.offset + byteSize (Script.leadAll (scriptsAll items))

theorem regions_eq (l : Lexer) (items : List Item) : regions l items =
    (Place.regionsFrom (startOf l items) (Script.waiting (scriptsAll items))).filter
    (·.1.kind != .whitespace) := by
  rw [regions, Script.forest_eq, regionsFrom_blankLeaf]
  rfl

section
variable {l m : Lexer} {items : List Item} (h : Account l items m)
include h

theorem startOf_add_size : startOf l items + Tree.sizeAll (Script.waiting (scriptsAll items)) = m.offset := by
  rw [startOf, Tree.sizeAll_eq_byteSize, Nat.add_assoc, ← byteSize_append,
    Script.leadAll_append_textAll_waiting, ← h.starts.2]

theorem regions_node {kind : Kind} (hk : kind ≠ .whitespace) : regions l [.node kind items] =
    (.node kind (Script.waiting (scriptsAll items)), ⟨startOf l items, m.offset⟩) :: regions l items := by
  rw [regions_single l rfl, Script.tree, Script.lead, Place.parts_node,
    List.filter_cons_of_pos (by simp [Tree.kind, hk]), regions_eq, ← startOf_add_size h]
  rfl

theorem regions_enclosed (kind : Kind) : regions l [.enclosed kind items] =
    (.node .error [.node kind (Script.waiting (scriptsAll items))], ⟨startOf l items, m.offset⟩) ::
      regions l [.node kind items] := by
  have hsize : Tree.sizeAll [.node kind (Script.waiting (scriptsAll items))] =
      Tree.sizeAll (Script.waiting (scriptsAll items)) := by simp [Tree.sizeAll, Tree.size]
  rw [regions_single l rfl, regions_single l rfl]
  simp only [Script.tree, Script.lead, Script.forest, List.append_nil]
  rw [Place.parts_node, List.filter_cons_of_pos (by simp [Tree.kind]), Place.regionsFrom_singleton, hsize,
    ← startOf_add_size h]
  rfl

/-- A node that is given up, and the problem node around it. -/
theorem regions_givenUp {kind : Kind} (hk : kind ≠ .whitespace) (f : Finding) :
    regions l [.enclosed kind (items ++ [.found f])] =
      (.node .error [.node kind (Script.waiting (scriptsAll items))], ⟨startOf l items, m.offset⟩) ::
        (.node kind (Script.waiting (scriptsAll items)), ⟨startOf l items, m.offset⟩) :: regions l items := by
  have hscripts : scriptsAll [.enclosed kind (items ++ [.found f])] = scriptsAll [.enclosed kind items] := by
    simp [scriptsAll, scripts, scriptsAll_append]
  rw [← regions_node h hk, ← regions_enclosed h, regions, regions, hscripts]

end

/-! ## Rows of items -/

def row (l : Lexer) (items : List Item) : List (Tree × Span) :=
  (Place.rowFrom l.offset (Script.forest (scriptsAll items))).filter (·.1.kind != .whitespace)

theorem row_append {l m : Lexer} {is js : List Item} (h : Account l is m) : row l (is ++ js) = row l is ++ row m js := by
  have hsize : Tree.sizeAll (Script.forest (scriptsAll is)) = byteSize (Script.textAll (scriptsAll is)) := by
    rw [Tree.sizeAll_eq_byteSize, Script.textAll_forest]
  rw [row, scriptsAll_append, Script.forest_append, Place.rowFrom_append, List.filter_append, hsize, ← h.starts.2]
  rfl

theorem rowFrom_blankLeaf (pos : Nat) (blanks : List Char) (ts : List Tree) :
    (Place.rowFrom pos (Script.blankLeaf blanks ++ ts)).filter (·.1.kind != .whitespace) =
      (Place.rowFrom (pos + byteSize blanks) ts).filter (·.1.kind != .whitespace) := by
  cases blanks with
  | nil => rfl
  | cons c blanks =>
    rw [Script.blankLeaf, Place.rowFrom_append, List.filter_append]
    simp [Place.rowFrom, Tree.kind, Tree.sizeAll, Tree.size]

theorem row_token (l : Lexer) {kind : Kind} (hk : kind ≠ .whitespace) :
    row l [.token l kind] = [(.leaf kind l.ahead.text, l.ahead.span)] := by
  have hforest : Script.forest (scriptsAll [.token l kind]) = Script.blankLeaf l.leading ++ [.leaf kind l.ahead.text] :=
    rfl
  rw [row, hforest, rowFrom_blankLeaf, Place.rowFrom, Place.rowFrom,
    List.filter_cons_of_pos (by simpa [Tree.kind] using hk)]
  rfl

theorem row_item (l : Lexer) : row l [l.item] = [(.leaf l.kind l.ahead.text, l.ahead.span)] :=
  row_token l l.kind_ne_whitespace

theorem row_eq (l : Lexer) (items : List Item) : row l items =
    (Place.rowFrom (startOf l items) (Script.waiting (scriptsAll items))).filter (·.1.kind != .whitespace) := by
  rw [row, Script.forest_eq, rowFrom_blankLeaf]
  rfl

theorem findingsAll_givenUp (kind : Kind) (items : List Item) (f : Finding) :
    findingsAll [.enclosed kind (items ++ [.found f])] = findingsAll items ++ [f] := by
  simp [findingsAll, findings, findingsAll_append]

theorem leaves_regions {l m : Lexer} {items : List Item} (h : Account l items m) :
    (regions l items).filter (·.1.isLeaf) =
      (takenAll items).map fun t => (.leaf t.2 t.1.ahead.text, t.1.ahead.span) := by
  induction h with
  | skip | relex => rfl
  | found => rfl
  | @take l =>
    rw [Lexer.item, regions_token l l.kind_ne_whitespace]
    rfl
  | word _ hk =>
    rw [regions_token _ (Kind.ne_whitespace_of_mem_wordLabels hk)]
    rfl
  | node hk h ih =>
    rw [regions_node h (ne_whitespace_of_isNode hk), List.filter_cons_of_neg (by simp [Tree.isLeaf]), ih]
    simp [takenAll, taken]
  | enclosed hk h ih =>
    rw [regions_enclosed h, regions_node h (ne_whitespace_of_isNode hk),
      List.filter_cons_of_neg (by simp [Tree.isLeaf]), List.filter_cons_of_neg (by simp [Tree.isLeaf]), ih]
    simp [takenAll, taken]
  | append h _ ih ih' => rw [regions_append h, List.filter_append, ih, ih', takenAll_append, List.map_append]

end Item

namespace Parse

/-- The elements of a parse, blanks aside: the file, what its items stand for, and the end of the text. -/
theorem regions_root {text : List Char} {items : List Item} {l : Lexer}
    (h : (Reading.lines text.length).leads (.ofText text) items l) (hsize : byteSize text ≤ maxOffset) :
    (ofText text).root.parts.filter (·.1.kind != .whitespace) =
      (ofText text).root.region ::
      (Item.regions (.ofText text) items ++ [(.leaf .eof [], l.ahead.span)]) := by
  have hlast : Item.regions l [l.item] = [(.leaf .eof [], l.ahead.span)] := by
    rw [Lexer.item, Item.regions_token l l.kind_ne_whitespace, Lexer.text_of_eof (kind_of_lines h),
      kind_of_lines h]
  rw [← hlast, ← Item.regions_append (account_of_lines h), ofText_eq h hsize]
  simp only [root, Place.ofRoot, Place.parts_node]
  rw [List.filter_cons_of_pos (by simp [Tree.kind])]
  rfl

/-- The leaves that are not blank: each token that was taken has one, and the end of the text is the last. -/
theorem regions_leaves {text : List Char} {items : List Item} {l : Lexer}
    (h : (Reading.lines text.length).leads (.ofText text) items l) (hsize : byteSize text ≤ maxOffset) :
    ((ofText text).root.leaves.map Place.region).filter (·.1.kind != .whitespace) =
      ((Item.takenAll items).map fun t => (.leaf t.2 t.1.ahead.text, t.1.ahead.span)) ++
        [(.leaf .eof [], l.ahead.span)] := by
  have hroot : (ofText text).root.region.1.isLeaf = false := by
    rw [Place.region, tree_of_lines h hsize]
    rfl
  rw [Place.map_region_leaves, List.filter_comm, regions_root h hsize, List.filter_cons_of_neg (by simp [hroot]),
    List.filter_append, Item.leaves_regions (account_of_lines h)]
  rfl

/-- An element of a parse is the file, one of those of its items, or the end of the text, unless it is blank. -/
theorem region_cases {text : List Char} {items : List Item} {l : Lexer}
    (h : (Reading.lines text.length).leads (.ofText text) items l) (hsize : byteSize text ≤ maxOffset) {q : Place}
    (hq : q ∈ (ofText text).root.elements) (hsolid : q.kind ≠ .whitespace) :
    q.tree = (ofText text).root.tree ∨ q.region ∈ Item.regions (.ofText text) items ∨ q.tree = .leaf .eof [] := by
  have hregion : q.region ∈ (ofText text).root.parts.filter (·.1.kind != .whitespace) :=
    List.mem_filter.mpr ⟨List.mem_map_of_mem hq, bne_iff_ne.mpr hsolid⟩
  rw [regions_root h hsize, List.mem_cons, List.mem_append, List.mem_singleton] at hregion
  exact hregion.imp (congrArg Prod.fst) (Or.imp_right (congrArg Prod.fst))

/-- Every region of the items of a file is that of an element. -/
theorem exists_of_region {text : List Char} {items : List Item} {l : Lexer}
    (h : (Reading.lines text.length).leads (.ofText text) items l) (hsize : byteSize text ≤ maxOffset)
    {r : Tree × Span} (hr : r ∈ Item.regions (.ofText text) items) :
    ∃ q ∈ (ofText text).root.elements, q.region = r := by
  have hpart : r ∈ (ofText text).root.parts.filter (·.1.kind != .whitespace) := by
    rw [regions_root h hsize]
    exact List.mem_cons_of_mem _ (List.mem_append_left _ hr)
  exact List.mem_map.mp (List.mem_filter.mp hpart).1

end Parse

end Dofile
