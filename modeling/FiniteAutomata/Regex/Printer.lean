import FiniteAutomata.Regex.Basic

/-!
# Regex/Printer — the text of an expression

Union binds weaker than concatenation, and concatenation weaker than everything else.  A part is
put in brackets where it binds weaker than its place asks for; both operators associate to the
left, so the place on their right asks for one more than they bind themselves.  The strengths are
`0`, `1` and `2`.
-/

namespace FiniteAutomata.Regex

variable {α : Type}

/-- Brackets around a text, where they are needed. -/
def bracketIf (needed : Bool) (text : List Char) : List Char :=
  if needed then '(' :: text ++ [')'] else text

/-- The characters of an expression at a place that asks for the strength `least`. -/
def charsAt (least : Nat) : Regex Char → List Char
  | empty => ['∅']
  | epsilon => ['ε']
  | symbol c => [c]
  | concat l r => bracketIf (1 < least) (charsAt 1 l ++ charsAt 2 r)
  | union l r => bracketIf (0 < least) (charsAt 0 l ++ '|' :: charsAt 1 r)
  | star r => charsAt 2 r ++ ['*']

/-- The text of an expression. -/
def print (r : Regex Char) : String := String.ofList (charsAt 0 r)

/-- How deep the brackets are nested that an expression needs at such a place. -/
def nestingAt (least : Nat) : Regex α → Nat
  | concat l r => max (nestingAt 1 l) (nestingAt 2 r) + if 1 < least then 1 else 0
  | union l r => max (nestingAt 0 l) (nestingAt 1 r) + if 0 < least then 1 else 0
  | star r => nestingAt 2 r
  | _ => 0

/-- How deep brackets are nested in the text of an expression. -/
def nesting (r : Regex α) : Nat := nestingAt 0 r

end FiniteAutomata.Regex
