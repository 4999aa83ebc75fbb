import Dofile.Proofs.Item
import Dofile.Proofs.Leaves

/-!
# Accounts

Whatever rules are at work, only a few kinds of steps lead from one place of a text
to another. An account is a list of such steps: its tokens tile the text between
the two places, and each was read where it stands.
-/

namespace Dofile

/-- The kinds under which a word can be taken instead of its own. -/
def Kind.wordLabels : List Kind :=
  [.ident, .prefixKeyword, .localKeyword, .globalKeyword, .tempKeyword, .programKeyword,
    .defineKeyword, .endKeyword, .mataKeyword]

theorem Kind.endKeyword_mem_wordLabels : .endKeyword ∈ wordLabels := by decide

theorem Kind.isNode_of_mem_wordLabels {k : Kind} (h : k ∈ wordLabels) : k.isNode = false :=
  (show ∀ k ∈ wordLabels, k.isNode = false by decide) k h

theorem Kind.ne_whitespace_of_mem_wordLabels {k : Kind} (h : k ∈ wordLabels) : k ≠ .whitespace :=
  (show ∀ k ∈ wordLabels, k ≠ .whitespace by decide) k h

theorem Kind.ne_eof_of_mem_wordLabels {k : Kind} (h : k ∈ wordLabels) : k ≠ .eof :=
  (show ∀ k ∈ wordLabels, k ≠ .eof by decide) k h

namespace Lexer

def IsWord (l : Lexer) : Prop := Word.kinds.contains l.kind = true

def IsWordOf (l : Lexer) (words : List String) : Prop :=
  l.IsWord ∧ Word.isOneOf words l.ahead.text = true

theorem IsWord.ne_eof {l : Lexer} (h : l.IsWord) : l.kind ≠ .eof := by
  intro he
  rw [IsWord, he] at h
  exact absurd h (by decide)

theorem IsWord.not_endsLine {l : Lexer} (h : l.IsWord) : ¬ l.EndsLine := by
  intro he
  unfold IsWord at h
  rcases he with hk | hk
  all_goals
    rw [hk] at h
    exact absurd h (by decide)

def TakenAs (l : Lexer) (kind : Kind) : Prop :=
  l.kind ≠ .eof ∧ (kind = l.kind ∨ l.IsWord ∧ kind ∈ Kind.wordLabels)

theorem TakenAs.ne_whitespace {l : Lexer} {kind : Kind} (h : l.TakenAs kind) : kind ≠ .whitespace := by
  rcases h.2 with rfl | ⟨-, hk⟩
  · exact l.kind_ne_whitespace
  · exact Kind.ne_whitespace_of_mem_wordLabels hk

theorem TakenAs.ne_eof {l : Lexer} {kind : Kind} (h : l.TakenAs kind) : kind ≠ .eof := by
  rcases h.2 with rfl | ⟨-, hk⟩
  · exact h.1
  · exact Kind.ne_eof_of_mem_wordLabels hk

/-- Whether a lexer stands in a text: at its offset the text goes on as the lexer says,
and it knows whether that is the start of a line. -/
def Stands (text : List Char) (l : Lexer) : Prop :=
  ∃ before, before ++ l.rest = text ∧ l.offset = byteSize before ∧ l.fresh = freshAfter true before

theorem stands_ofText (text : List Char) : (ofText text).Stands text := ⟨[], rfl, rfl, rfl⟩

theorem Stands.next {text : List Char} {l : Lexer} (h : l.Stands text) (mode : Mode) :
    (l.next mode).Stands text := by
  obtain ⟨before, htext, hoffset, hfresh⟩ := h
  refine ⟨before ++ l.ahead.fullText, ?_, ?_, ?_⟩
  · rw [next_rest, List.append_assoc, l.fullText_append_after, htext]
  · simp only [next_offset, Token.stop, Token.start, Token.fullText, byteSize_append, ← hoffset]
    have hstart : l.ahead.offset = l.offset := rfl
    omega
  · rw [freshAfter_append, ← hfresh]
    rfl

theorem Stands.relex {text : List Char} {l : Lexer} (h : l.Stands text) (mode : Mode) :
    (l.relex mode).Stands text := h

theorem Stands.slice_leading {text : List Char} {l : Lexer} (h : l.Stands text) :
    (Span.mk l.ahead.offset l.ahead.start).slice? text = some l.ahead.leading := by
  obtain ⟨before, htext, hoffset, -⟩ := h
  have hcut : cutBytes l.ahead.offset text = some (before, l.leading ++ l.body) := by
    have hat : l.ahead.offset = byteSize before := hoffset
    rw [l.leading_append_body, ← htext, hat]
    exact cutBytes_byteSize before l.rest
  have hsize : l.ahead.start - l.ahead.offset = byteSize l.leading := by
    simp only [Token.start, ahead_eq]
    omega
  simp only [Span.slice?, hcut, hsize, bind, Option.bind, cutBytes_byteSize]
  rfl

theorem Stands.slice_span {text : List Char} {l : Lexer} (h : l.Stands text) :
    l.ahead.span.slice? text = some l.ahead.text := by
  obtain ⟨before, htext, hoffset, -⟩ := h
  have hstart : l.ahead.span.start = byteSize (before ++ l.leading) := by
    rw [byteSize_append, ← hoffset]
    rfl
  have hcover : text = (before ++ l.leading) ++ (l.ahead.text ++ l.after) := by
    rw [l.text_append_after, List.append_assoc, l.leading_append_body, htext]
  have hsize : l.ahead.span.stop - l.ahead.span.start = byteSize l.ahead.text := by
    simp only [Token.span, Token.stop]
    omega
  have hcut : cutBytes (byteSize (before ++ l.leading)) text =
      some (before ++ l.leading, l.ahead.text ++ l.after) :=
    (congrArg (cutBytes _) hcover).trans (cutBytes_byteSize ..)
  rw [Span.slice?, hsize, hstart, hcut]
  simp [cutBytes_byteSize]

end Lexer

/-- The steps that can lead from one place to another. -/
inductive Account : Lexer → List Item → Lexer → Prop where
  | skip (l : Lexer) : Account l [] l
  | take {l : Lexer} (h : l.kind ≠ .eof) (mode : Mode) : Account l [l.item] (l.next mode)
  | word {l : Lexer} (h : l.IsWord) {kind : Kind} (hk : kind ∈ Kind.wordLabels) (mode : Mode) :
    Account l [.token l kind] (l.next mode)
  | relex (l : Lexer) (mode : Mode) : Account l [] (l.relex mode)
  | found (l : Lexer) {f : Finding} (h : f.span.start ≤ f.span.stop) : Account l [.found f] l
  | node {l l' : Lexer} {items : List Item} {kind : Kind} (hk : kind.isNode = true)
    (h : Account l items l') : Account l [.node kind items] l'
  | enclosed {l l' : Lexer} {items : List Item} {kind : Kind} (hk : kind.isNode = true)
    (h : Account l items l') : Account l [.enclosed kind items] l'
  | append {l m l' : Lexer} {is js : List Item} (h : Account l is m) (h' : Account m js l') :
    Account l (is ++ js) l'

namespace Account

/-- The tokens of an account are the text that it passes. -/
theorem text {l l' : Lexer} {items : List Item} (h : Account l items l') :
    Script.textAll (Item.scriptsAll items) ++ l'.rest = l.rest := by
  induction h with
  | skip | relex => simp [Item.scriptsAll, Script.textAll]
  | found => simp [Item.scriptsAll, Item.scripts, Script.textAll]
  | @take l =>
    simpa [Lexer.item, Item.scriptsAll, Item.scripts, Script.textAll, Script.text, Token.fullText]
      using l.fullText_append_after
  | @word l =>
    simpa [Item.scriptsAll, Item.scripts, Script.textAll, Script.text, Token.fullText]
      using l.fullText_append_after
  | node _ _ ih => simpa [Item.scriptsAll, Item.scripts, Script.textAll, Script.text] using ih
  | enclosed _ _ ih => simpa [Item.scriptsAll, Item.scripts, Script.textAll, Script.text] using ih
  | append _ _ ih ih' =>
    rw [Item.scriptsAll_append, Script.textAll_append, List.append_assoc, ih', ih]

theorem rest_le {l l' : Lexer} {items : List Item} (h : Account l items l') :
    l'.rest.length ≤ l.rest.length := by
  rw [← h.text, List.length_append]
  omega

theorem sound {l l' : Lexer} {items : List Item} (h : Account l items l') :
    Script.SoundAll (Item.scriptsAll items) := by
  induction h with
  | skip | relex | found => trivial
  | take h => exact ⟨Lexer.isNode_kind _, trivial⟩
  | word _ hk => exact ⟨Kind.isNode_of_mem_wordLabels hk, trivial⟩
  | node hk _ ih => exact ⟨⟨hk, ih⟩, trivial⟩
  | enclosed hk _ ih => exact ⟨⟨by decide, rfl, ⟨hk, ih⟩, trivial, trivial⟩, trivial⟩
  | append _ _ ih ih' =>
    rw [Item.scriptsAll_append, Script.soundAll_append]
    exact ⟨ih, ih'⟩

/-- A lexer that stands in a text goes on to stand in it, and each token was taken where
one did. -/
theorem stands {text : List Char} {l l' : Lexer} {items : List Item} (h : Account l items l')
    (hl : l.Stands text) :
    l'.Stands text ∧ ∀ t ∈ Item.takenAll items, t.1.Stands text ∧ t.1.TakenAs t.2 := by
  induction h with
  | skip | found => exact ⟨hl, by simp [Item.takenAll, Item.taken]⟩
  | relex l mode => exact ⟨hl.relex mode, by simp [Item.takenAll]⟩
  | take h mode =>
    refine ⟨hl.next mode, ?_⟩
    simpa [Item.takenAll, Item.taken, Lexer.item] using ⟨hl, h, Or.inl rfl⟩
  | word h hk mode =>
    refine ⟨hl.next mode, ?_⟩
    simpa [Item.takenAll, Item.taken] using ⟨hl, h.ne_eof, Or.inr ⟨h, hk⟩⟩
  | node _ _ ih => simpa [Item.takenAll, Item.taken] using ih hl
  | enclosed _ _ ih => simpa [Item.takenAll, Item.taken] using ih hl
  | append _ _ ih ih' =>
    obtain ⟨hm, hfirst⟩ := ih hl
    obtain ⟨hl', hsecond⟩ := ih' hm
    refine ⟨hl', fun t ht => ?_⟩
    rw [Item.takenAll_append, List.mem_append] at ht
    exact ht.elim (hfirst t) (hsecond t)

end Account

end Dofile
