import FiniteAutomata.Nfa.Combine
import FiniteAutomata.Regex.Basic

/-!
# Regex/Tagged — the automaton of an expression, with its own states

The plain construction puts the automata of the operands side by side and relabels nothing: a state
is a state of an atom under one tag for each operator above it, so its type has the shape of the
expression (`TaggedState`).
-/

namespace FiniteAutomata.Regex

variable {α : Type}

/-- The states of an expression: those of the operands, tagged by the operator. -/
def TaggedState : Regex α → Type
  | empty | epsilon => Unit
  | symbol _ => Bool
  | concat l r => ConcatState l.TaggedState r.TaggedState
  | union l r => UnionState l.TaggedState r.TaggedState
  | star r => StarState r.TaggedState

/-- The order of tagged states, operator by operator. -/
instance TaggedState.ordered : (r : Regex α) → Ordered r.TaggedState
  | empty | epsilon => inferInstanceAs (Ordered Unit)
  | symbol _ => inferInstanceAs (Ordered Bool)
  | concat l r =>
    have := ordered l
    have := ordered r
    inferInstanceAs (Ordered (ConcatState l.TaggedState r.TaggedState))
  | union l r =>
    have := ordered l
    have := ordered r
    inferInstanceAs (Ordered (UnionState l.TaggedState r.TaggedState))
  | star r =>
    have := ordered r
    inferInstanceAs (Ordered (StarState r.TaggedState))

/-- The automaton of an expression with tagged states, if all of its symbols are in the alphabet. -/
def tagged? [Ordered α] (alphabet : OrdSet α) : (r : Regex α) → Option (Nfa r.TaggedState α)
  | empty => some (Nfa.empty alphabet)
  | epsilon => some (Nfa.epsilon alphabet)
  | symbol c => Nfa.symbol? alphabet c
  | concat l r => do (← l.tagged? alphabet).concat? (← r.tagged? alphabet)
  | union l r => do (← l.tagged? alphabet).union? (← r.tagged? alphabet)
  | star r => return (← r.tagged? alphabet).star

end FiniteAutomata.Regex
