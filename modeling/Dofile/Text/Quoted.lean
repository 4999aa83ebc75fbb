import Dofile.Text.Invisible

/-!
# Quoted text

The one-line form of a text: in double quotes, with the quote, the backslash and
every invisible character written as an escape.
-/

namespace Dofile.Quoted

def hexDigits (n : Nat) : List Char := Nat.toDigits 16 n

def escape (c : Char) : List Char :=
  if c == '\t' then ['\\', 't']
  else if c == '\r' then ['\\', 'r']
  else if c == '\n' then ['\\', 'n']
  else if c == '\x00' then ['\\', '0']
  else if c == '"' then ['\\', '"']
  else if c == '\\' then ['\\', '\\']
  else if isInvisible c then ['\\', 'u', '{'] ++ hexDigits c.toNat ++ ['}']
  else [c]

def encode (text : List Char) : List Char := '"' :: text.flatMap escape ++ ['"']

end Dofile.Quoted
