import FiniteAutomata.Dfa.Basic
import FiniteAutomata.Nfa.Basic

/-!
# Dfa/ToNfa — a deterministic automaton as a nondeterministic one

Every entry becomes an edge.  The dead state becomes the state `none`, which no edge touches.
-/

namespace FiniteAutomata.Dfa

variable {σ α : Type} [Ordered σ] [Ordered α]

/-- The same automaton with the dead state as the state `none`. -/
def toNfa (d : Dfa σ α) : Nfa (Option σ) α where
  states := d.withDead
  alphabet := d.alphabet
  start := d.start
  transitions := .ofList (d.entries.map fun (q, c, r) => .reading (some q) (some r) c)
  accepting := d.accepting.map some

end FiniteAutomata.Dfa
