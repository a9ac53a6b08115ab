import FiniteAutomata.Dfa.Basic
import FiniteAutomata.Nfa.Run
import FiniteAutomata.OrdSet.Powerset

/-!
# Nfa/ToDfa — the subset construction

The deterministic automaton holds in one state the set of states a run can be in.  All subsets are
states, reachable or not, and each has an entry for every symbol; the empty set takes the part of
the dead state.
-/

namespace FiniteAutomata.Nfa

variable {σ α : Type} [Ordered σ] [Ordered α]

/-- The automaton whose states are the subsets of the states. -/
def toDfa (n : Nfa σ α) : Dfa (OrdSet σ) α :=
  let subsets := n.states.powerset
  { states := subsets
    alphabet := n.alphabet
    start := some n.begin
    rows := .ofKeys subsets fun s => .ofKeys n.alphabet (n.step s)
    accepting := subsets.filter (·.meets n.accepting) }

end FiniteAutomata.Nfa
