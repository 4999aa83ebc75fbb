import Dofile.Proofs.Extension
import Dofile.Proofs.Parts
import Dofile.Proofs.Whole

/-!
# Texts one behind the other

A text that ends with a line feed, and in which all blocks and comments end, can be
parsed on its own: whatever follows is parsed as if it stood alone.
-/

namespace Dofile

namespace Reading

/-! ## Programs within programs -/

def Le (R S : Reading) : Prop := ∀ ⦃l items l'⦄, R.leads l items l' → S.leads l items l'

section
variable {R S R' S' : Reading} {p : Lexer → Prop}

theorem Le.refl (R : Reading) : Le R R := fun _ _ _ h => h

theorem Le.seq (h : Le R S) (h' : Le R' S') : Le (R.seq R') (S.seq S') := by
  intro l items l' hR
  obtain ⟨is, m, js, hfirst, hsecond, hitems⟩ := hR
  exact ⟨is, m, js, h hfirst, h' hsecond, hitems⟩

theorem Le.when (h : Le R S) (p : Lexer → Prop) : Le (R.when p) (S.when p) := fun _ _ _ hR => ⟨hR.1, h hR.2⟩

theorem Le.upTo (h : Le R S) (p : Lexer → Prop) : Le (R.upTo p) (S.upTo p) := fun _ _ _ hR => ⟨h hR.1, hR.2⟩

theorem Le.or (h : Le R S) (h' : Le R' S') : Le (R.or R') (S.or S') := fun _ _ _ hR => hR.imp (h ·) (h' ·)

theorem Le.either (h : Le R S) (h' : Le R' S') (p : Lexer → Prop) : Le (either p R R') (either p S S') :=
  (h.when p).or (h'.when _)

theorem Le.many (h : Le R S) (stops : Lexer → Prop) : Le (many stops R) (many stops S) := by
  intro l items l' hmany
  induction hmany with
  | done hd => exact .done hd
  | more hne first _ ih => exact .more hne (h first) ih

theorem Le.node (h : Le R S) {kind : Kind} (hk : kind.isNode = true) : Le (node kind R hk) (node kind S hk) := by
  intro l items l' hR
  obtain ⟨is, hR, hitems⟩ := hR
  exact ⟨is, h hR, hitems⟩

theorem Le.givenUp (h : Le R S) {kind : Kind} (problem : Problem) (span : Lexer → Lexer → Span)
    (hk : kind.isNode = true) : Le (givenUp kind problem span R hk) (givenUp kind problem span S hk) := by
  intro l items l' hR
  obtain ⟨is, hR, hspan, hitems⟩ := hR
  exact ⟨is, h hR, hspan, hitems⟩

theorem Le.programDefinition (h : Le R S) : Le (programDefinition R) (programDefinition S) := by
  have hlines := (Le.refl programHead).seq (h.many ProgramEnds)
  exact ((hlines.upTo _).givenUp _ _ _).or (((hlines.upTo _).seq (Le.refl _)).node _)

theorem Le.lineWith (h : Le R S) : Le (lineWith R) (lineWith S) := by
  have hstatement : Le (statement R) (statement S) :=
    (Le.refl _).either ((Le.refl _).either (h.programDefinition.either (Le.refl _) _) _) _
  exact ((Le.refl _).either ((Le.refl _).seq (((Le.refl _).either hstatement _).seq (Le.refl _))) _).when _

end

/-- What is a line to one depth is a line to any greater one. -/
theorem line_le {depth depth' : Nat} (h : depth ≤ depth') : Le (line depth) (line depth') := by
  induction depth generalizing depth' with
  | zero => exact fun _ _ _ h => h.elim
  | succ depth ih =>
    -- the greater depth is no zero either, so one level comes off both
    obtain ⟨depth', rfl⟩ := Nat.exists_eq_add_of_le' h
    exact (ih (Nat.le_of_succ_le_succ h)).lineWith

theorem lines_le {depth depth' : Nat} (h : depth ≤ depth') : Le (lines depth) (lines depth') := (line_le h).many _

end Reading

/-! ## Lines of texts -/

open Reading

section
variable {depth : Nat} {l l' : Lexer} {items : List Item}

/-- A transport that never comes to an end carries over all lines. -/
theorem carried_lines {K : Transport} (hspent : ∀ l, ¬ K.Spent l) (hclean : K.Clean items) (hn : K.Near l)
    (hl : l.SameIn .statement) (h : (lines depth).leads l items l') : K.Carried (lines depth) l items l' := by
  have hline := (Transport.carries_line (K := K) depth).to fun l hl => hl.resolve_right fun hs => hspent l hs.1
  have hlines := (hline.of fun l (hl : l.SameIn .statement ∧ ¬ l.kind = .eof) => hl.1).many (Transport.keeps_kind .eof)
  exact (hlines h hclean hn hl).1

/-- In a text that goes on, the lines of its beginning come before those of what follows. -/
theorem lines_extend {more : List Char} (h : (lines depth).leads l items l')
    (hclean : (Transport.extend more).Clean items) (hl : (Transport.extend more).Out l) :
    (l'.rest = [] ∧ l'.mode = .statement) ∧
      (∀ t ∈ Item.takenAll items, LineEnded t.1.rest ∧ ¬ t.1.Torn) ∧
      ∀ {js l''}, (lines depth).leads (l'.extend more) js l'' →
        (lines depth).leads (l.extend more) ((Transport.extend more).mapAll items ++ js) l'' := by
  have hends {l : Lexer} (h : LineEnded l.rest) : l.kind ≠ .eof := by
    intro he
    have hbody := (Lexer.body_extend h []).2
    rw [l.kind_eq_eof_iff.mp he] at hbody
    cases hbody
  induction h with
  | @done l hd =>
    -- a text that still ends with a line feed has a token ahead
    have hspent := hl.resolve_left fun hl => hends hl.1 hd
    exact ⟨hspent, by simp [Item.takenAll], fun h => h⟩
  | @more l m l' is js hne first rest ih =>
    obtain ⟨his, hjs⟩ := (Transport.extend more).clean_append.mp hclean
    have hnear := hl.resolve_right fun hspent => hne (Lexer.kind_of_rest_nil hspent.1)
    obtain ⟨⟨hline, htaken⟩, hm⟩ := Transport.carries_line depth first his hnear.1 hnear.2
    obtain ⟨hl', htaken', hrest⟩ := ih hjs hm
    refine ⟨hl', fun t ht => ?_, fun h => ?_⟩
    · rw [Item.takenAll_append, List.mem_append] at ht
      exact ht.elim (htaken t) (htaken' t)
    · rw [Transport.mapAll_append, List.append_assoc]
      have hne' : (l.extend more).kind ≠ .eof := by rwa [Lexer.kind_extend hnear.1]
      exact .more hne' hline (hrest h)

end

namespace Parse

section
variable {a b : List Char} {is js : List Item} {la lb : Lexer}
  (ha : (lines a.length).leads (.ofText a) is la) (hb : (lines b.length).leads (.ofText b) js lb)
  (hended : a = [] ∨ LineEnded a)
include ha hended

/-- Behind a text that ends with a line feed another one begins as if it stood alone. -/
theorem extend_end (hrest : la.rest = []) (hmode : la.mode = .statement) :
    la.extend b = (Lexer.ofText b).behind (byteSize a) := by
  obtain ⟨before, htext, hoffset, hfresh⟩ := ((account_of_lines ha).stands (Lexer.stands_ofText a)).1
  rw [hrest, List.append_nil] at htext
  subst htext
  have hline : freshAfter true before = true := by
    rcases hended with rfl | hended
    · rfl
    · obtain ⟨u, rfl⟩ := List.getLast?_eq_some_iff.mp hended
      rw [freshAfter_append]
      simp [freshAfter, isLineBreak]
  rw [hline] at hfresh
  simp [Lexer.extend, Lexer.behind, Lexer.ofText, hrest, hmode, hoffset, hfresh]

include hb

/-- The lines of two texts one behind the other. -/
theorem lines_append (hclean : (Transport.extend b).Clean is) :
    la.rest = [] ∧ (∀ t ∈ Item.takenAll is, LineEnded t.1.rest ∧ ¬ t.1.Torn) ∧
      (lines (a ++ b).length).leads (.ofText (a ++ b))
        ((Transport.extend b).mapAll is ++ (Transport.behind (byteSize a)).mapAll js) (lb.behind (byteSize a)) := by
  have hla : a.length ≤ (a ++ b).length := by simp
  have hlb : b.length ≤ (a ++ b).length := by simp
  have hout : (Transport.extend b).Out (.ofText a) := by
    rcases hended with rfl | hended
    · exact .inr ⟨rfl, rfl⟩
    · exact .inl ⟨hended, .inl rfl⟩
  obtain ⟨⟨hrest, hmode⟩, htaken, hlines⟩ := lines_extend (lines_le hla ha) hclean hout
  have hbehind := (carried_lines (K := Transport.behind (byteSize a)) (fun _ => id) (fun _ _ => id) trivial
    (.inl rfl) (lines_le hlb hb)).1
  rw [extend_end ha hended hrest hmode] at hlines
  exact ⟨hrest, htaken, hlines hbehind⟩

end

theorem forest_fileItems (items : List Item) {l : Lexer} (hrest : l.rest = []) :
    Script.forest (Item.scriptsAll (fileItems items l)) =
      Script.forest (Item.scriptsAll items) ++ [.leaf .eof []] := by
  have hkind := Lexer.kind_of_rest_nil hrest
  have hleading : l.ahead.leading = [] := List.prefix_nil.mp (hrest ▸ l.leading_isPrefix)
  rw [fileItems, Item.scriptsAll_append, Script.forest_append]
  simp [Lexer.item, Item.scriptsAll, Item.scripts, Script.forest, Script.lead, Script.tree, hleading, hkind,
    Script.blankLeaf, Lexer.text_of_eof hkind]

/-- The trees of a text that goes on are those of its two parts. -/
theorem forest_append {is : List Item} (js : List Item) (lb : Lexer) (more : List Char) (size : Nat)
    (htaken : ∀ t ∈ Item.takenAll is, LineEnded t.1.rest ∧ ¬ t.1.Torn) :
    Script.forest (Item.scriptsAll (fileItems ((Transport.extend more).mapAll is ++
        (Transport.behind size).mapAll js) (lb.behind size))) =
      Script.forest (Item.scriptsAll is) ++ Script.forest (Item.scriptsAll (fileItems js lb)) := by
  have hitems : fileItems ((Transport.extend more).mapAll is ++ (Transport.behind size).mapAll js)
      (lb.behind size) = (Transport.extend more).mapAll is ++ (Transport.behind size).mapAll (fileItems js lb) := by
    rw [fileItems, fileItems, Transport.mapAll_append, List.append_assoc]
    rfl
  have hfirst : Script.forest (Item.scriptsAll ((Transport.extend more).mapAll is)) =
      Script.forest (Item.scriptsAll is) :=
    Item.forest_mapAll_id fun t ht => by
      have hahead : ((Transport.extend more).map t.1).ahead = t.1.ahead :=
        Lexer.ahead_extend (htaken t ht).1 (htaken t ht).2 more
      rw [hahead]
      exact ⟨rfl, rfl⟩
  have hsecond : Script.forest (Item.scriptsAll ((Transport.behind size).mapAll (fileItems js lb))) =
      Script.forest (Item.scriptsAll (fileItems js lb)) := Item.forest_mapAll_id fun t _ => ⟨rfl, rfl⟩
  rw [hitems, Item.scriptsAll_append, Script.forest_append, hfirst, hsecond]

/-- The text of a file can be cut behind any line feed at which all blocks and comments
have ended: its parse is that of the first part without the end of the text and that of the
second part moved behind the first. -/
theorem ofText_append (a b : List Char) (hended : a = [] ∨ LineEnded a)
    (hclean : ∀ x ∈ (ofText a).findings, x.problem ∉ Problem.ofOpenText)
    (hsize : byteSize (a ++ b) ≤ maxOffset) :
    (ofText (a ++ b)).root.children.map Place.parts =
        (ofText a).root.children.dropLast.map Place.parts ++
          (ofText b).root.children.map (fun p => p.parts.map (Place.regionBehind (byteSize a))) ∧
      (ofText a).root.children.getLast?.map Place.tree = some (.leaf .eof []) ∧
      (ofText (a ++ b)).findings =
        (ofText a).findings ++ (ofText b).findings.map (Finding.map (· + byteSize a)) := by
  have hsizes : byteSize a ≤ maxOffset ∧ byteSize b ≤ maxOffset := by
    rw [byteSize_append] at hsize
    omega
  obtain ⟨is, la, ha⟩ := exists_lines a
  obtain ⟨js, lb, hb⟩ := exists_lines b
  rw [ofText_eq ha hsizes.1] at hclean ⊢
  rw [ofText_eq hb hsizes.2]
  obtain ⟨hrest, htaken, hlines⟩ := lines_append ha hb hended hclean
  rw [ofText_eq hlines hsize]
  have htext := (account_of_lines ha).text
  rw [hrest, List.append_nil] at htext
  have hlength : Tree.sizeAll (Script.forest (Item.scriptsAll is)) = byteSize a := by
    rw [Tree.sizeAll_eq_byteSize, Script.textAll_forest, htext]
    rfl
  have hforest := forest_append js lb b (byteSize a) htaken
  have hfile := forest_fileItems is hrest
  refine ⟨?_, ?_, ?_⟩
  · have hbehind := Place.partsFrom_behind (byteSize a) 0 (Script.forest (Item.scriptsAll (fileItems js lb)))
    rw [Nat.zero_add, ← Place.map_parts_children .sourceFile, List.map_map] at hbehind
    rw [List.map_dropLast, root, root, Place.map_parts_children, Place.map_parts_children, hforest, hfile,
      Place.partsFrom_append, Place.partsFrom_append, hlength, Nat.zero_add, hbehind]
    exact congrArg (· ++ _) List.dropLast_concat.symm
  · rw [← List.getLast?_map, root, Place.map_tree_children, hfile, List.getLast?_append]
    rfl
  · have hfirst : Item.findingsAll ((Transport.extend b).mapAll is) = Item.findingsAll is :=
      (Item.findingsAll_mapAll is).trans (List.map_id _)
    have hsecond : Item.findingsAll ((Transport.behind (byteSize a)).mapAll js) =
        (Item.findingsAll js).map (Finding.map (· + byteSize a)) := Item.findingsAll_mapAll js
    rw [Item.findingsAll_append, hfirst, hsecond]

theorem ofText_append_program :
    let a := "program p\n display `x\nend\n".toList
    let b := "mata:\n y\n".toList
    (a = [] ∨ LineEnded a) ∧ (∀ x ∈ (ofText a).findings, x.problem ∉ Problem.ofOpenText) ∧
      byteSize (a ++ b) ≤ maxOffset ∧
      (ofText (a ++ b)).root.children.map Place.parts =
        (ofText a).root.children.dropLast.map Place.parts ++
          (ofText b).root.children.map (fun p => p.parts.map (Place.regionBehind (byteSize a))) ∧
      (ofText a).root.children.getLast?.map Place.tree = some (.leaf .eof []) ∧
      (ofText (a ++ b)).findings =
        (ofText a).findings ++ (ofText b).findings.map (Finding.map (· + byteSize a)) := by
  have hended : LineEnded "program p\n display `x\nend\n".toList := by decide
  have hclean : ∀ x ∈ (ofText "program p\n display `x\nend\n".toList).findings,
      x.problem ∉ Problem.ofOpenText := by decide +kernel
  have hsize : byteSize ("program p\n display `x\nend\n".toList ++ "mata:\n y\n".toList) ≤ maxOffset := by decide
  exact ⟨.inr hended, hclean, hsize, ofText_append _ _ (.inr hended) hclean hsize⟩

end Parse

end Dofile
