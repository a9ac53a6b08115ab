import FiniteAutomata.Dfa.Basic
import FiniteAutomata.Saturation

/-!
# Dfa/Reachable — the states a run can be in, and the questions they answer

A run over the alphabet moves from `q` to `d.step q c` for a symbol `c`; `reachable` holds every
state, the dead state included, in which such a run can end.  An automaton is empty if none of them
accepts and full if all of them do.
-/

namespace FiniteAutomata.Dfa

variable {σ α : Type} [Ordered σ] [Ordered α]

/-- The states one symbol away. -/
def successors (d : Dfa σ α) : Successors (Option σ) where
  next q := d.alphabet.toList.map (d.step q)
  targets := none :: d.entries.map fun entry => some entry.2.2
  next_subset q r h := by
    obtain ⟨c, _, rfl⟩ := List.mem_map.1 h
    cases q with
    | none => exact List.mem_cons_self ..
    | some q =>
      cases hr : d.step (some q) c with
      | none => exact List.mem_cons_self ..
      | some r =>
        exact List.mem_cons_of_mem _ (List.mem_map.2 ⟨_, step_eq_some.1 hr, rfl⟩)

/-- How the states reachable from the start are found. -/
def reachableSaturation (d : Dfa σ α) : Saturation (Option σ) := d.successors.saturation {d.start}

/-- The states in which a run over the alphabet can end; `none` is the dead state. -/
def reachable (d : Dfa σ α) : OrdSet (Option σ) := d.reachableSaturation.elements

/-- Whether no word over the alphabet is accepted. -/
def isEmpty (d : Dfa σ α) : Bool := !d.reachable.toList.any d.acceptsAt

/-- Whether every word over the alphabet is accepted. -/
def isFull (d : Dfa σ α) : Bool := d.reachable.toList.all d.acceptsAt

theorem start_mem_reachable (d : Dfa σ α) : d.start ∈ d.reachable :=
  Successors.subset_closure _ _ _ (OrdSet.mem_singleton.2 rfl)

theorem step_mem_reachable {d : Dfa σ α} {q : Option σ} {c : α} (hq : q ∈ d.reachable)
    (hc : c ∈ d.alphabet) : d.step q c ∈ d.reachable :=
  Successors.closure_closed _ _ hq (List.mem_map_of_mem hc)

end FiniteAutomata.Dfa
