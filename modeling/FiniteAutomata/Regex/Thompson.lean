import FiniteAutomata.Log.Run
import FiniteAutomata.Nfa.Combine
import FiniteAutomata.Nfa.Relabel
import FiniteAutomata.Regex.Basic

/-!
# Regex/Thompson — the nondeterministic automaton of an expression

Each constructor of an expression has an automaton or a combinator of automata, and every
intermediate automaton is relabelled, so that all of them have numbers as states.  `toNfa?` is the
construction as a recursion over the expression; `toNfa` does it with a list of tasks and a stack of
finished automata (`assemble`), and reports the saturation of every relabelling.
-/

namespace FiniteAutomata

/-- Why there is no automaton for an expression. -/
inductive BuildError (α : Type)
  /-- The expression uses a symbol that the alphabet does not have. -/
  | foreignSymbol (c : α)
  /-- Two automata over different alphabets were to be combined. -/
  | alphabetMismatch
  /-- An operand was needed that nothing had built. -/
  | missingOperand
  /-- A state was needed that has no number. -/
  | missingState
  deriving DecidableEq

namespace Regex

variable {α : Type} [Ordered α]

/-! ## The construction as a recursion -/

/-- The automaton of an expression, if all of its symbols are in the alphabet. -/
def toNfa? (alphabet : OrdSet α) : Regex α → Option (Nfa Nat α)
  | empty => some (Nfa.empty alphabet).relabel
  | epsilon => some (Nfa.epsilon alphabet).relabel
  | symbol c => (Nfa.symbol? alphabet c).map Nfa.relabel
  | concat l r => do return (← (← l.toNfa? alphabet).concat? (← r.toNfa? alphabet)).relabel
  | union l r => do return (← (← l.toNfa? alphabet).union? (← r.toNfa? alphabet)).relabel
  | star r => do return (← r.toNfa? alphabet).star.relabel

/-! ## The construction with a stack -/

/-- What is left to do: to build the automaton of an expression, or to combine the automata on top
of the stack. -/
inductive Task (α : Type)
  | visit (r : Regex α)
  | concat
  | union
  | star

/-- The number of nodes of an expression. -/
def nodes : Regex α → Nat
  | concat l r | union l r => l.nodes + r.nodes + 1
  | star r => r.nodes + 1
  | _ => 1

/-- A bound for the number of tasks that come out of a task, itself included. -/
def Task.weight : Task α → Nat
  | visit r => 2 * r.nodes
  | _ => 1

/-- A bound for the number of tasks that come out of several tasks. -/
def Task.totalWeight : List (Task α) → Nat
  | [] => 0
  | task :: tasks => task.weight + totalWeight tasks

/-- The relabelled automaton, with the report of its saturation. -/
def relabelled {σ ε : Type} [Ordered σ] (n : Nfa σ α) : Run ε (Nfa Nat α) := do
  Run.report [n.reachableSaturation.record]
  return n.relabel

/-- Does the tasks one after the other; the right operand of a combination is on top. -/
def assemble (alphabet : OrdSet α) : List (Task α) → List (Nfa Nat α) →
    Run (BuildError α) (List (Nfa Nat α))
  | [], built => return built
  | .visit empty :: tasks, built => do
    assemble alphabet tasks ((← relabelled (Nfa.empty alphabet)) :: built)
  | .visit epsilon :: tasks, built => do
    assemble alphabet tasks ((← relabelled (Nfa.epsilon alphabet)) :: built)
  | .visit (symbol c) :: tasks, built => do
    let n ← Run.ofOption (.foreignSymbol c) (Nfa.symbol? alphabet c)
    assemble alphabet tasks ((← relabelled n) :: built)
  | .visit (concat l r) :: tasks, built =>
    assemble alphabet (.visit l :: .visit r :: .concat :: tasks) built
  | .visit (union l r) :: tasks, built =>
    assemble alphabet (.visit l :: .visit r :: .union :: tasks) built
  | .visit (star r) :: tasks, built => assemble alphabet (.visit r :: .star :: tasks) built
  | .concat :: tasks, r :: l :: built => do
    let n ← Run.ofOption .alphabetMismatch (l.concat? r)
    assemble alphabet tasks ((← relabelled n) :: built)
  | .union :: tasks, r :: l :: built => do
    let n ← Run.ofOption .alphabetMismatch (l.union? r)
    assemble alphabet tasks ((← relabelled n) :: built)
  | .star :: tasks, n :: built => do assemble alphabet tasks ((← relabelled n.star) :: built)
  | _, _ => Run.fail .missingOperand
termination_by tasks => Task.totalWeight tasks
decreasing_by
  all_goals
    simp only [Task.totalWeight, Task.weight, nodes]
    omega

/-- The automaton of an expression, the only one left on the stack when no task is left. -/
def toNfa (alphabet : OrdSet α) (r : Regex α) : Run (BuildError α) (Nfa Nat α) := do
  match ← assemble alphabet [.visit r] [] with
  | n :: _ => return n
  | [] => Run.fail .missingOperand

end Regex

end FiniteAutomata
