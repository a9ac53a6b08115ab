import FiniteAutomata.Dfa.Reachable
import FiniteAutomata.OrdSet.Numbering

/-!
# Dfa/Relabel — numbering the reachable states

Relabelling keeps the reachable states other than the dead one and numbers them `1` to `n` in
ascending order.  Reachability only follows symbols of the alphabet, so an entry for a foreign
symbol may lead to a state without a number; then there is no relabelled automaton.
-/

namespace FiniteAutomata.Dfa

variable {σ α : Type} [Ordered σ] [Ordered α]

/-- The states other than the dead one in which a run over the alphabet can end. -/
def present (d : Dfa σ α) : OrdSet σ := d.reachable.filterMap id

/-- The row of a state with its targets renumbered, under the number of the state. -/
def renumberRow? (number? : σ → Option Nat) (q : σ) (row : OrdMap α σ) :
    Option (Nat × OrdMap α Nat) := do
  return (← number? q, ← row.traverse? number?)

/-- The automaton on the numbers of the present states, if every entry of their rows leads to a
present state. -/
def relabel? (d : Dfa σ α) : Option (Dfa Nat α) := do
  let kept := d.present
  let rows ← (d.rows.entries.filter fun row => kept.contains row.1).mapM fun row =>
    renumberRow? kept.number? row.1 row.2
  return {
    states := .upTo kept.size
    alphabet := d.alphabet
    start := d.start.bind kept.number?
    rows := .ofList rows
    accepting := d.accepting.filterMap kept.number? }

end FiniteAutomata.Dfa
