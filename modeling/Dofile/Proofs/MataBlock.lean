import Dofile.Proofs.Bounds

/-!
# What a mata block is read as

A mata block has one of three forms, and two of them may lack their ends. What is found in it is that
its end is missing, at its keyword, or that a comment behind its `end` has none.
-/

namespace Dofile

open Reading (mataOpening mataBlock mataBraces MataEnds trailingComments)

/-- What a mata block is read as, with a constructor for each way in which it can end. Behind the head stands `o`. -/
inductive MataCase (l o : Lexer) : List Item → Lexer → Prop where
  | braces {n : Lexer} {is js : List Item} (opening : mataOpening.leads l is o) (brace : o.kind = .leftBrace)
    (content : (Reading.eat .mataContent .mataBrace).leads (o.next .mataBrace) js n) (closer : n.kind = .rightBrace) :
    MataCase l o [.node .mataBlock (is ++ o.item :: js ++ [n.item])] (n.next .statement)
  | openBraces {n : Lexer} {is js : List Item} (opening : mataOpening.leads l is o) (brace : o.kind = .leftBrace)
    (content : (Reading.eat .mataContent .mataBrace).leads (o.next .mataBrace) js n) (closer : n.kind ≠ .rightBrace) :
    MataCase l o [.enclosed .mataBlock (is ++ o.item :: js ++ [.found ⟨.missingMataBrace, l.ahead.span⟩])]
      (n.relex .statement)
  | lines {n m : Lexer} {is js cs : List Item} (opening : mataOpening.leads l is o) (line : o.EndsLine)
    (content : (Reading.many MataEnds (Reading.take .mataLine)).leads o js n) (closer : n.kind = .controlKeyword)
    (comments : trailingComments.leads (n.next .statement) cs m) :
    MataCase l o [.node .mataBlock (is ++ js ++ .token n .endKeyword :: cs)] m
  | openLines {n : Lexer} {is js : List Item} (opening : mataOpening.leads l is o) (line : o.EndsLine)
    (content : (Reading.many MataEnds (Reading.take .mataLine)).leads o js n) (closer : n.kind = .eof) :
    MataCase l o [.enclosed .mataBlock (is ++ js ++ [.found ⟨.missingMataEnd, l.ahead.span⟩])] n
  | inline {is : List Item} (opening : mataOpening.leads l is o) (brace : o.kind ≠ .leftBrace)
    (line : ¬ o.EndsLine) : MataCase l o [.node .mataBlock (is ++ [o.item])] (o.next .statement)

namespace Reading

theorem mataCase {l m : Lexer} {items : List Item} (h : mataBlock.leads l items m) :
    ∃ o, MataCase l o items m := by
  rcases h with h | h | h
  · rcases delimited_cases h with ⟨_, n, hbody, hn, rfl, rfl⟩ | ⟨_, n, hbody, hn, rfl, rfl⟩
    all_goals obtain ⟨is, b, _, ⟨hopen, hb⟩, ⟨_, _, js, ⟨-, rfl, rfl⟩, hcontent, rfl⟩, rfl⟩ := hbody
    · exact ⟨b, .braces hopen hb hcontent hn⟩
    · exact ⟨b, .openBraces hopen hb hcontent hn⟩
  · rcases h with ⟨_, ⟨⟨is, b, js, ⟨hopen, hb⟩, hlines, rfl⟩, hn⟩, -, rfl⟩ |
      ⟨_, ⟨_, n, _, ⟨⟨is, b, js, ⟨hopen, hb⟩, hlines, rfl⟩, hn⟩, ⟨_, _, cs, ⟨hword, rfl, rfl⟩, hcomments, rfl⟩, rfl⟩, rfl⟩
    · exact ⟨b, .openLines hopen hb hlines hn⟩
    · exact ⟨b, .lines hopen hb hlines ((stops_of_many hlines).resolve_left hn) hcomments⟩
  · obtain ⟨_, ⟨is, b, _, ⟨hopen, hb, hline⟩, ⟨-, rfl, rfl⟩, rfl⟩, rfl⟩ := h
    exact ⟨b, .inline hopen hb hline⟩

theorem findings_of_mataOpening {l b : Lexer} {is : List Item} (h : mataOpening.leads l is b) :
    Item.findingsAll is = [] := by
  obtain ⟨_, _, _, ⟨-, rfl, -⟩, ⟨-, -, rfl, -⟩ | ⟨-, rfl, -⟩, rfl⟩ := h <;> rfl

theorem stop_le_of_mataOpening {l b : Lexer} {is : List Item} (h : mataOpening.leads l is b) :
    l.ahead.stop ≤ b.offset := by
  obtain ⟨_, _, _, ⟨-, -, rfl⟩, hcolon, -⟩ := h
  exact ((eat .colon .mataHead).account hcolon).offset_le

theorem findings_of_content {l m : Lexer} {items : List Item} (h : (eat .mataContent .mataBrace).leads l items m) :
    Item.findingsAll items = [] := by
  rcases h with ⟨-, -, rfl, -⟩ | ⟨-, rfl, -⟩ <;> rfl

theorem findings_of_mataLines {l m : Lexer} {items : List Item}
    (h : (many MataEnds (take .mataLine)).leads l items m) : Item.findingsAll items = [] := by
  induction h with
  | done => rfl
  | more _ first _ ih =>
    obtain ⟨-, rfl, -⟩ := first
    rw [Item.findingsAll_append, ih]
    rfl

end Reading

namespace MataCase

variable {l o m : Lexer} {items : List Item}

theorem opening (h : MataCase l o items m) : ∃ is, mataOpening.leads l is o := by
  cases h with
  | braces opening | openBraces opening | lines opening | openLines opening | inline opening => exact ⟨_, opening⟩

/-- A mata block without its end is found at its keyword. -/
theorem found (h : MataCase l o items m) : ∀ f ∈ Item.findingsAll items,
    f.span = l.ahead.span ∨ l.ahead.stop ≤ f.span.start ∧ f.span.stop ≤ m.offset := by
  intro f hf
  cases h with
  | braces opening brace content =>
    have hnone := Reading.findings_of_mataOpening opening
    have hnone' := Reading.findings_of_content content
    simp [Item.findingsAll, Item.findings, Item.findingsAll_append, Lexer.item, hnone, hnone'] at hf
  | openBraces opening brace content =>
    have hnone := Reading.findings_of_mataOpening opening
    have hnone' := Reading.findings_of_content content
    have hf : f = ⟨.missingMataBrace, l.ahead.span⟩ := by
      simpa [Item.findingsAll, Item.findings, Item.findingsAll_append, Lexer.item, hnone, hnone'] using hf
    exact .inl (by rw [hf])
  | @lines n m is js cs opening line content closer comments =>
    have hnone := Reading.findings_of_mataOpening opening
    have hnone' := Reading.findings_of_mataLines content
    have hf : f ∈ Item.findingsAll cs := by
      simpa [Item.findingsAll, Item.findings, Item.findingsAll_append, hnone, hnone'] using hf
    have hbound := Reading.stop_of_trailingComments comments f hf
    have hopen := Reading.stop_le_of_mataOpening opening
    have hlines := ((Reading.many MataEnds (Reading.take .mataLine)).account content).offset_le
    have hend : n.offset ≤ (n.next .statement).offset := Nat.le_trans (Nat.le_add_right ..) (Nat.le_add_right ..)
    exact .inr ⟨by omega, hbound.2⟩
  | openLines opening line content =>
    have hnone := Reading.findings_of_mataOpening opening
    have hnone' := Reading.findings_of_mataLines content
    have hf : f = ⟨.missingMataEnd, l.ahead.span⟩ := by
      simpa [Item.findingsAll, Item.findings, Item.findingsAll_append, hnone, hnone'] using hf
    exact .inl (by rw [hf])
  | inline opening =>
    have hnone := Reading.findings_of_mataOpening opening
    simp [Item.findingsAll, Item.findings, Item.findingsAll_append, Lexer.item, hnone] at hf

end MataCase

end Dofile
