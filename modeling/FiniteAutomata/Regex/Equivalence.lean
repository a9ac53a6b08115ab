import FiniteAutomata.Regex.Compile
import FiniteAutomata.Regex.Parser

/-!
# Regex/Equivalence — whether two texts describe one language

Both texts are read and compiled, the left one first; they are equivalent if the symmetric
difference of their automata accepts nothing.  The first text that cannot be read, or that uses
symbols outside the alphabet, decides the error.
-/

namespace FiniteAutomata

/-- Why two texts cannot be compared. -/
inductive EquivalenceError
  /-- A text is not an expression. -/
  | parse (e : Regex.ParseError)
  /-- An expression uses these symbols, which the alphabet does not have. -/
  | foreignSymbols (symbols : OrdSet Char)
  /-- The automata of the texts have different alphabets. -/
  | alphabetMismatch
  /-- A construction did not find something it had made. -/
  | broken

namespace EquivalenceError

/-- The error in words. -/
def message : EquivalenceError → String
  | parse e => "invalid regular expression: " ++ e.located
  | foreignSymbols symbols =>
    "symbols \x7b" ++ ", ".intercalate (symbols.toList.map fun c => "'" ++ c.toString ++ "'") ++
      "\x7d are not in the alphabet"
  | alphabetMismatch => "automata over different alphabets can't be compared"
  | broken => "a construction lost an operand or a state"

end EquivalenceError

namespace Regex

/-- Reads a text and compiles the expression. -/
def compile (alphabet : OrdSet Char) (text : String) : Run EquivalenceError (Dfa Nat Char) := do
  let r ← (Run.ofExcept (parse text)).mapError .parse
  (r.toDfa alphabet).mapError fun
    | .foreignSymbol _ | .alphabetMismatch => .foreignSymbols (r.symbols \ alphabet)
    | .missingOperand | .missingState => .broken

/-- Whether two texts describe the same language over an alphabet. -/
def equivalent (alphabet : OrdSet Char) (left right : String) : Run EquivalenceError Bool := do
  let a ← compile alphabet left
  let b ← compile alphabet right
  Run.report (a.productLog b)
  let d ← Run.ofOption .alphabetMismatch (Dfa.symmetricDifference? a b)
  Run.report [.difference a.states.size b.states.size d.states.size]
  Run.report [d.reachableSaturation.record]
  return d.isEmpty

end Regex

end FiniteAutomata
