import FiniteAutomata.Text.Invisible

/-!
# Text/Quoted — text between double quotes

A double quote and a backslash are marked by a backslash; line feed, carriage return, tab and the
null character have a letter of their own; what else cannot be seen is written by its code point in
lowercase hexadecimal digits.  Everything else stands for itself.
-/

namespace FiniteAutomata.Text

/-- A character by its code point. -/
def escapeCode (c : Char) : List Char :=
  "\\u\x7b".toList ++ Nat.toDigits 16 c.toNat ++ "\x7d".toList

/-- A character as it is written between quotes. -/
def escape (c : Char) : List Char :=
  if c = '"' ∨ c = '\\' then ['\\', c]
  else if c = '\n' then ['\\', 'n']
  else if c = '\r' then ['\\', 'r']
  else if c = '\t' then ['\\', 't']
  else if c = '\x00' then ['\\', '0']
  else if isInvisible c then escapeCode c
  else [c]

/-- A text between quotes. -/
def quoted (text : List Char) : List Char := '"' :: text.flatMap escape ++ ['"']

end FiniteAutomata.Text
