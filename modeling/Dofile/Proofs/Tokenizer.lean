import Dofile.Proofs.Context
import Dofile.Proofs.Tiling

/-!
# Lexers with a buffer

A lexer computes the token ahead from the place before it. A tokenizer has read that token already: its
cursor is behind the token, it knows where a token stands only from how much of the text is left, and to
read the token again it goes back to where the blanks before it begin. It does what the lexer does.
-/

namespace Dofile

/-- What is left of a text, and how much was left where the piece being measured began. -/
structure Cursor where
  rest : List Char
  mark : Nat

namespace Cursor

def ofText (text : List Char) : Cursor := ⟨text, byteSize text⟩

def left (c : Cursor) : Nat := byteSize c.rest

def width (c : Cursor) : Nat := c.mark - c.left

def reset (c : Cursor) : Cursor := { c with mark := c.left }

def advance (c : Cursor) (count : Nat) : Cursor := { c with rest := c.rest.drop count }

def skipBlanks (c : Cursor) (mode : Mode) : Cursor :=
  if mode.skipsBlanks then c.advance (c.rest.takeWhile isBlank).length else c

@[simp] theorem left_mk (rest : List Char) (mark : Nat) : (mk rest mark).left = byteSize rest := rfl

@[simp] theorem reset_mk (rest : List Char) (mark : Nat) : (mk rest mark).reset = ofText rest := rfl

@[simp] theorem left_ofText (text : List Char) : (ofText text).left = byteSize text := rfl

@[simp] theorem rest_ofText (text : List Char) : (ofText text).rest = text := rfl

section
variable (passed rest : List Char)

theorem advance_ofText : (ofText (passed ++ rest)).advance passed.length =
    ⟨rest, byteSize passed + byteSize rest⟩ := by
  rw [advance, ofText, List.drop_left, byteSize_append]

/-- The width is the size of what has been passed since the mark. -/
@[simp] theorem width_passed : (mk rest (byteSize passed + byteSize rest)).width = byteSize passed :=
  Nat.add_sub_cancel ..

end

theorem skipBlanks_ofText (l : Lexer) : (ofText l.rest).skipBlanks l.mode =
    ⟨l.body, byteSize l.leading + byteSize l.body⟩ := by
  have hadvance := advance_ofText l.leading l.body
  rw [l.leading_append_body] at hadvance
  rw [← hadvance, skipBlanks, Lexer.leading]
  split <;> rfl

end Cursor

namespace Lexer

variable {text : List Char} {l : Lexer}

theorem Stands.size_eq (h : l.Stands text) : byteSize text = l.ahead.stop + byteSize l.after := by
  obtain ⟨before, hcut, -⟩ := h.cut_body
  obtain ⟨htext, hstart⟩ := cutBytes_eq_some hcut
  rw [← htext, byteSize_append, hstart, ← l.text_append_after, byteSize_append, Token.stop, Nat.add_assoc]

theorem Stands.size_sub_after (h : l.Stands text) : byteSize text - byteSize l.after = l.ahead.stop := by
  rw [h.size_eq, Nat.add_sub_cancel]

theorem Stands.size_sub_body (h : l.Stands text) : byteSize text - byteSize l.body = l.ahead.start := by
  rw [h.size_eq, ← l.text_append_after, byteSize_append, Nat.add_sub_add_right, Token.stop, Nat.add_sub_cancel]

end Lexer

structure Scanned where
  leading : Nat
  kind : Kind
  span : Span
  deriving DecidableEq

def Scanned.offset (s : Scanned) : Nat := s.span.start - s.leading

def Token.scanned (t : Token) : Scanned := ⟨byteSize t.leading, t.kind, t.span⟩

structure Tokenizer where
  text : List Char
  cursor : Cursor
  ahead : Scanned

namespace Tokenizer

/-- Reads a token behind a cursor. Whether its line starts there is told by looking back in the text. -/
def lex (text : List Char) (cursor : Cursor) (mode : Mode) : Tokenizer :=
  let cursor := cursor.reset.skipBlanks mode
  let leading := cursor.width
  let cursor := cursor.reset
  let lexeme := mode.lexeme (isLineStart text (byteSize text - cursor.left)) cursor.rest
  let cursor := cursor.advance lexeme.text.length
  let stop := byteSize text - cursor.left
  ⟨text, cursor.reset, ⟨leading, lexeme.kind, ⟨stop - cursor.width, stop⟩⟩⟩

def ofText (text : List Char) (mode : Mode) : Tokenizer := lex text (.ofText text) mode

def next (t : Tokenizer) (mode : Mode) : Tokenizer := lex t.text t.cursor mode

/-- Reads the token ahead again. There is no going back to an offset that is no place of the text. -/
def relex (t : Tokenizer) (mode : Mode) : Option Tokenizer :=
  (cutBytes t.ahead.offset t.text).map fun parts => lex t.text (.ofText parts.2) mode

def run : List Lexer.Step → Tokenizer → Option (List Scanned × Tokenizer)
  | [], t => some ([], t)
  | .next mode :: steps, t => (run steps (t.next mode)).map fun (tokens, t') => (t.ahead :: tokens, t')
  | .relex mode :: steps, t => (t.relex mode).bind (run steps)

def ofLexer (text : List Char) (l : Lexer) : Tokenizer := ⟨text, .ofText l.after, l.ahead.scanned⟩

variable {text : List Char} {l : Lexer}

/-- Looking back and counting what is left give what the lexer carries along. -/
theorem lex_of_stands (h : l.Stands text) {cursor : Cursor} (hrest : cursor.rest = l.rest) :
    lex text cursor l.mode = ofLexer text l := by
  obtain ⟨rest, mark⟩ := cursor
  obtain rfl : rest = l.rest := hrest
  have hlexeme : l.mode.lexeme (isLineStart text (byteSize text - byteSize l.body)) l.body =
      ⟨l.kind, l.ahead.text⟩ := by
    rw [h.size_sub_body, h.isLineStart_start]
    rfl
  have hpass := Cursor.advance_ofText l.ahead.text l.after
  rw [l.text_append_after] at hpass
  have hspan : (⟨l.ahead.stop - byteSize l.ahead.text, l.ahead.stop⟩ : Span) = l.ahead.span := by
    rw [Token.span, Token.stop, Nat.add_sub_cancel]
  simp only [lex, Cursor.reset_mk, Cursor.skipBlanks_ofText, Cursor.width_passed, Cursor.left_ofText,
    Cursor.rest_ofText, hlexeme, hpass, Cursor.left_mk, h.size_sub_after, hspan]
  rfl

theorem ofText_eq (text : List Char) (mode : Mode) :
    ofText text mode = ofLexer text ((Lexer.ofText text).relex mode) :=
  lex_of_stands ((Lexer.stands_ofText text).relex mode) rfl

theorem next_ofLexer (h : l.Stands text) (mode : Mode) :
    (ofLexer text l).next mode = ofLexer text (l.next mode) :=
  lex_of_stands (h.next mode) rfl

theorem relex_ofLexer (h : l.Stands text) (mode : Mode) :
    (ofLexer text l).relex mode = some (ofLexer text (l.relex mode)) := by
  obtain ⟨before, hcut, -⟩ := h.cut
  have hoffset : (ofLexer text l).ahead.offset = l.offset := Nat.add_sub_cancel ..
  rw [relex, hoffset]
  show (cutBytes l.offset text).map _ = _
  rw [hcut, Option.map_some]
  exact congrArg some (lex_of_stands (h.relex mode) rfl)

/-- Whatever steps a tokenizer takes, it returns what the lexer returns and ends where that ends. -/
theorem run_ofLexer (steps : List Lexer.Step) (h : l.Stands text) :
    run steps (ofLexer text l) =
      some ((Lexer.run steps l).1.map Token.scanned, ofLexer text (Lexer.run steps l).2) := by
  induction steps generalizing l with
  | nil => rfl
  | cons step steps ih =>
    cases step with
    | next mode =>
      rw [run, next_ofLexer h, ih (h.next mode)]
      rfl
    | relex mode =>
      rw [run, relex_ofLexer h]
      exact ih (h.relex mode)

theorem run_ofText (text : List Char) (mode : Mode) (steps : List Lexer.Step) :
    let l := (Lexer.ofText text).relex mode
    run steps (ofText text mode) =
      some ((Lexer.run steps l).1.map Token.scanned, ofLexer text (Lexer.run steps l).2) := by
  rw [ofText_eq]
  exact run_ofLexer steps ((Lexer.stands_ofText text).relex mode)

/-- A tokenizer never gets stuck and returns what the lexer returns. Wherever the two have got to, a token
read in one mode and then again in another is what it would have been if read in the other at once: the
tokens returned are the same, and so is the state, now and behind all later steps. -/
theorem relex_eq_lex (text : List Char) (first : Mode) (steps : List Lexer.Step) (a b : Mode) :
    let (tokens, l) := Lexer.run steps ((Lexer.ofText text).relex first)
    ∃ t, run steps (ofText text first) = some (tokens.map Token.scanned, t) ∧ t.ahead = l.ahead.scanned ∧
      ∀ later,
        (Lexer.run (.next a :: .relex b :: later) l = Lexer.run (.next b :: later) l ∧
          Lexer.run (.relex a :: .relex b :: later) l = Lexer.run (.relex b :: later) l) ∧
        (run (.next b :: later) t).isSome ∧ (run (.relex b :: later) t).isSome ∧
        run (.next a :: .relex b :: later) t = run (.next b :: later) t ∧
        run (.relex a :: .relex b :: later) t = run (.relex b :: later) t := by
  have hstart : ((Lexer.ofText text).relex first).Stands text := (Lexer.stands_ofText text).relex first
  have h := (Lexer.run_stands steps hstart).1
  refine ⟨ofLexer text _, run_ofText text first steps, rfl, fun later => ⟨⟨rfl, rfl⟩, ?_⟩⟩
  -- The lexer keeps the place before the token, so that reading again has nothing to undo there.
  have hnext := run_ofLexer (.next b :: later) h
  have hrelex := run_ofLexer (.relex b :: later) h
  refine ⟨by rw [hnext, Option.isSome_some], by rw [hrelex, Option.isSome_some], ?_, ?_⟩
  · exact (run_ofLexer (.next a :: .relex b :: later) h).trans hnext.symm
  · exact (run_ofLexer (.relex a :: .relex b :: later) h).trans hrelex.symm

end Tokenizer

end Dofile
