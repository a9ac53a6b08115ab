import FiniteAutomata.Dfa.Relabel
import FiniteAutomata.Log.Automata
import FiniteAutomata.Regex.Thompson

/-!
# Regex/Compile — the deterministic automaton of an expression

The nondeterministic automaton is made deterministic by the subset construction, and the subsets
that can be reached are numbered.
-/

namespace FiniteAutomata.Regex

variable {α : Type} [Ordered α]

/-- The deterministic automaton of an expression. -/
def toDfa (alphabet : OrdSet α) (r : Regex α) : Run (BuildError α) (Dfa Nat α) := do
  let n ← r.toNfa alphabet
  Run.report n.toDfaLog
  let subsets := n.toDfa
  Run.report [subsets.reachableSaturation.record]
  let d ← Run.ofOption .missingState subsets.relabel?
  Run.report [.compiled n.states.size d.states.size]
  return d

end FiniteAutomata.Regex
