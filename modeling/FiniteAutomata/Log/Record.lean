import FiniteAutomata.Saturation

/-!
# Log/Record — what the constructions report about themselves

Every saturation leaves a trace of its size and its rounds; the large constructions report the
numbers of states that went in and came out.
-/

namespace FiniteAutomata

/-- How much of a detail a record is. -/
inductive Detail
  | debug
  | trace
  deriving DecidableEq

/-- One report. -/
inductive Record
  /-- A saturation found `size` elements in `rounds` rounds. -/
  | saturation (size rounds : Nat)
  /-- A nondeterministic automaton with `states` states has `sets` sets of states. -/
  | subsets (states sets : Nat)
  /-- The product of automata with `left` and `right` states has `states` states. -/
  | product (left right states : Nat)
  /-- An expression became a nondeterministic automaton and a deterministic one of these sizes. -/
  | compiled (nfaStates dfaStates : Nat)
  /-- The symmetric difference of automata with `left` and `right` states has `states` states. -/
  | difference (left right states : Nat)
  deriving DecidableEq

namespace Record

/-- Saturations are details; everything else is of the coarser level. -/
def detail : Record → Detail
  | saturation .. => .trace
  | _ => .debug

/-- The record in words. -/
def text : Record → String
  | saturation size rounds => s!"fixpoint of {size} elements after {rounds} iterations"
  | subsets states sets => s!"subset construction: {states} nfa states, {sets} subsets"
  | product left right states =>
    s!"product of automata with {left} and {right} states has {states} states"
  | compiled nfaStates dfaStates =>
    s!"regex compiled to an nfa with {nfaStates} states and a dfa with {dfaStates} reachable states"
  | difference left right states =>
    s!"symmetric difference of dfas with {left} and {right} states has {states} states"

end Record

/-- The report of a saturation. -/
def Saturation.record {α : Type} [Ordered α] (s : Saturation α) : Record :=
  .saturation s.elements.size s.rounds

end FiniteAutomata
