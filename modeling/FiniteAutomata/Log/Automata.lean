import FiniteAutomata.Dfa.Algebra
import FiniteAutomata.Log.Record
import FiniteAutomata.Nfa.ToDfa

/-!
# Log/Automata — the reports of the operations on automata

Each operation that saturates, and each construction that reports its sizes, has beside it the list
of its records in the order they are written.
-/

namespace FiniteAutomata

variable {σ τ α : Type} [Ordered σ] [Ordered τ] [Ordered α]

namespace Nfa

/-- One saturation before the first symbol and one after each. -/
def acceptsLog (n : Nfa σ α) (w : List α) : List Record :=
  (n.closureSaturation {n.start}).record :: go n.begin w
where
  /-- The records of the symbols that are left. -/
  go (s : OrdSet σ) : List α → List Record
    | [] => []
    | c :: w =>
      let moved := n.closureSaturation (n.move s c)
      moved.record :: go moved.elements w

/-- The sizes, then one saturation for each subset and symbol, then the one of the start. -/
def toDfaLog (n : Nfa σ α) : List Record :=
  let subsets := n.states.powerset
  .subsets n.states.size subsets.size ::
    (subsets.toList.flatMap fun s =>
      n.alphabet.toList.map fun c => (n.closureSaturation (n.move s c)).record) ++
    [(n.closureSaturation {n.start}).record]

end Nfa

namespace Dfa

/-- The sizes, if there is a product. -/
def productLog (a : Dfa σ α) (b : Dfa τ α) : List Record :=
  if a.alphabet = b.alphabet then
    [.product a.states.size b.states.size (a.withDead.product b.withDead).size]
  else
    []

/-- The sizes of the product and the saturation that looks for a difference. -/
def equalLog (a : Dfa σ α) (b : Dfa τ α) : List Record :=
  match symmetricDifference? a b with
  | some d => a.productLog b ++ [d.reachableSaturation.record]
  | none => []

end Dfa

end FiniteAutomata
