import FiniteAutomata.Regex.Basic
import FiniteAutomata.Regex.Glyph
import FiniteAutomata.Regex.ParseError

/-!
# Regex/Grammar — the grammar of expressions

`Derives k d t r`: the characters `t`, blanks left out, derive the expression `r` as a phrase of
the kind `k` inside `d` brackets.  A union is a list of concatenations separated by bars, a
concatenation a list of starred phrases, both folded to the left; a bracketed union is an atom if
the brackets around it are not nested too deep yet.
-/

namespace FiniteAutomata.Regex

/-- The kinds of phrases, from the weakest binding to the strongest. -/
inductive Phrase
  | union
  | concat
  | star
  | atom
  deriving DecidableEq

/-- The characters `t` derive `r` as a phrase of a kind, inside `d` brackets. -/
inductive Derives : Phrase → Nat → List Char → Regex Char → Prop
  | emptySet {d : Nat} : Derives .atom d ['∅'] .empty
  | emptyWord {d : Nat} : Derives .atom d ['ε'] .epsilon
  | symbol {d : Nat} {c : Char} : isSymbol c = true → Derives .atom d [c] (.symbol c)
  | bracketed {d : Nat} {o c : Char} {t : List Char} {r : Regex Char} : d < maxNesting →
      o ∈ openings → Derives .union (d + 1) t r → c ∈ closings →
      Derives .atom d (o :: t ++ [c]) r
  | plain {d : Nat} {t : List Char} {r : Regex Char} : Derives .atom d t r → Derives .star d t r
  | starred {d : Nat} {t : List Char} {r : Regex Char} : Derives .star d t r →
      Derives .star d (t ++ ['*']) (.star r)
  | factor {d : Nat} {t : List Char} {r : Regex Char} : Derives .star d t r → Derives .concat d t r
  | product {d : Nat} {t u : List Char} {l r : Regex Char} : Derives .concat d t l →
      Derives .star d u r → Derives .concat d (t ++ u) (.concat l r)
  | alternative {d : Nat} {t : List Char} {r : Regex Char} : Derives .concat d t r →
      Derives .union d t r
  | choice {d : Nat} {t u : List Char} {l r : Regex Char} : Derives .union d t l →
      Derives .concat d u r → Derives .union d (t ++ '|' :: u) (.union l r)

/-! ## Places in a text -/

/-- The characters that count: all but the blanks. -/
def significant (text : List Char) : List Char := text.filter fun c => !blanks.contains c

/-- How many brackets are open after a text, if every closing bracket in it closes one. -/
def openBrackets (text : List Char) : Nat :=
  text.countP openings.contains - text.countP closings.contains

/-- Whether an operand has to follow: nothing, a bar or an opening bracket comes last. -/
def needsOperand (text : List Char) : Bool :=
  match (significant text).getLast? with
  | none => true
  | some c => c == '|' || openings.contains c

end FiniteAutomata.Regex
