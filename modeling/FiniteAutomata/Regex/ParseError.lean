/-!
# Regex/ParseError — where a text stops being an expression, and what was expected there

An error names the character it met, or the end of the text, the number of bytes before it and what
could have stood there.  The expectation of an operand is repeated once for every bracket that is
still open around it.
-/

namespace FiniteAutomata.Regex

/-- Brackets may be nested this deep. -/
def maxNesting : Nat := 128

/-- What could have stood at the place of an error. -/
inductive Expected
  /-- An operand, inside `depth` open brackets. -/
  | operand (depth : Nat)
  /-- Anything but one more bracket. -/
  | shallower
  /-- A closing bracket, inside `depth` open brackets. -/
  | closing (depth : Nat)
  /-- The end of the text. -/
  | ending
  deriving DecidableEq

/-- Where a text stops being an expression: the character met there, if the text does not end, the
number of bytes before it, and what could have stood there. -/
structure ParseError where
  found : Option Char
  offset : Nat
  expected : Expected
  deriving DecidableEq

namespace Expected

/-- The description of an operand. -/
def operandText : String := "an alphanumeric symbol, `∅`, `ε` or a bracketed expression"

/-- The name of what was being read, if any. -/
def label? : Expected → Option String
  | operand _ | closing _ => some "atom"
  | shallower => some "nesting"
  | ending => none

/-- The descriptions of what could have stood there, innermost first. -/
def descriptions : Expected → List String
  | operand depth => List.replicate (depth + 1) operandText
  | shallower =>
    s!"at most {maxNesting} nested brackets" :: List.replicate (maxNesting + 1) operandText
  | closing depth => "closing bracket" :: List.replicate depth operandText
  | ending => []

/-- The expectation in words, if there is one. -/
def text? (e : Expected) : Option String :=
  e.label?.map fun label => "invalid " ++ label ++ ", expected " ++ ", ".intercalate e.descriptions

end Expected

namespace ParseError

/-- What was met, in words. -/
def foundText (e : ParseError) : String :=
  match e.found with
  | some c => "unexpected `" ++ c.toString ++ "`"
  | none => "unexpected end of input"

/-- What was met and what was expected, in words. -/
def message (e : ParseError) : String :=
  match e.expected.text? with
  | some text => e.foundText ++ ": " ++ text
  | none => e.foundText

/-- The message with its place. -/
def located (e : ParseError) : String := e.message ++ " at offset " ++ toString e.offset

end ParseError

end FiniteAutomata.Regex
