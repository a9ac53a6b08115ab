import FiniteAutomata.Nfa.Run
import FiniteAutomata.OrdSet.Numbering
import FiniteAutomata.Traversal

/-!
# Nfa/Relabel — numbering the reachable states

Relabelling keeps the reachable states only and numbers them `1` to `n` in ascending order.  The
number of a state is looked up, so the construction could fail; `isSome_relabel?` says that it
never does, because an edge that leaves a reachable state ends in a reachable state.
-/

namespace FiniteAutomata

variable {σ α : Type}

/-- The edge between the numbers of the ends, if both have one. -/
def Transition.renumber? (number? : σ → Option Nat) (t : Transition σ α) :
    Option (Transition Nat α) := do
  return ⟨← number? t.source, ← number? t.target, t.label⟩

namespace Nfa

variable [Ordered σ] [Ordered α]

/-- The automaton on the numbers of the reachable states, if every state it mentions has one. -/
def relabel? (n : Nfa σ α) : Option (Nfa Nat α) := do
  let reached := n.reachable
  let start ← reached.number? n.start
  let transitions ← (n.transitions.filter fun t => reached.contains t.source).toList.mapM
    (·.renumber? reached.number?)
  return {
    states := .upTo reached.size
    alphabet := n.alphabet
    start
    transitions := .ofList transitions
    accepting := n.accepting.filterMap reached.number? }

/-- **Every look-up finds a number.** -/
theorem isSome_relabel? (n : Nfa σ α) : n.relabel?.isSome := by
  obtain ⟨start, hstart⟩ := Option.isSome_iff_exists.1
    (OrdSet.isSome_number?.2 n.start_mem_reachable)
  have hall : ∀ t ∈ (n.transitions.filter fun t => n.reachable.contains t.source).toList,
      (t.renumber? n.reachable.number?).isSome := fun t ht => by
    obtain ⟨htn, hs⟩ := OrdSet.mem_filter.1 ht
    have hs := OrdSet.contains_iff.1 hs
    obtain ⟨i, hi⟩ := Option.isSome_iff_exists.1 (OrdSet.isSome_number?.2 hs)
    obtain ⟨j, hj⟩ := Option.isSome_iff_exists.1
      (OrdSet.isSome_number?.2 (target_mem_reachable htn hs))
    simp [Transition.renumber?, hi, hj]
  obtain ⟨ts, hts⟩ := Option.isSome_iff_exists.1 (isSome_mapM hall)
  simp only [relabel?, hstart, hts]
  rfl

/-- The automaton on the numbers of the reachable states. -/
def relabel (n : Nfa σ α) : Nfa Nat α := n.relabel?.get n.isSome_relabel?

theorem relabel?_eq_some (n : Nfa σ α) : n.relabel? = some n.relabel := by simp [relabel]

end Nfa

end FiniteAutomata
