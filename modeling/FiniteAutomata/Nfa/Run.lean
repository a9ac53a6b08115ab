import FiniteAutomata.Nfa.Basic
import FiniteAutomata.Saturation

/-!
# Nfa/Run — reachable states, silent closure and acceptance

A run holds the set of states the automaton can be in.  It starts in the silent closure of the
start; a symbol moves it along all edges that read it, and closes again under silent edges.
-/

namespace FiniteAutomata.Nfa

variable {σ α : Type} [Ordered σ] [Ordered α]

/-! ## Edges as a successor relation -/

/-- The successors along the edges whose label passes a test. -/
def successors (n : Nfa σ α) (along : Option α → Bool) : Successors σ where
  next q := (n.transitions.toList.filter fun t => compare t.source q == .eq && along t.label).map
    Transition.target
  targets := n.transitions.toList.map Transition.target
  next_subset _ _ h := by
    obtain ⟨t, ht, rfl⟩ := List.mem_map.1 h
    exact List.mem_map_of_mem (List.mem_filter.1 ht).1

theorem mem_next {n : Nfa σ α} {along : Option α → Bool} {p q : σ} :
    q ∈ (n.successors along).next p ↔ ∃ a, along a = true ∧ ⟨p, q, a⟩ ∈ n.transitions := by
  simp only [successors, List.mem_map, List.mem_filter, Bool.and_eq_true, beq_iff_eq,
    Ordered.compare_eq_iff, OrdSet.mem_toList]
  constructor
  · rintro ⟨⟨_, _, a⟩, ⟨ht, rfl, ha⟩, rfl⟩
    exact ⟨a, ha, ht⟩
  · rintro ⟨a, ha, ht⟩
    exact ⟨_, ⟨ht, rfl, ha⟩, rfl⟩

/-- How the states reachable from the start are found. -/
def reachableSaturation (n : Nfa σ α) : Saturation σ :=
  (n.successors fun _ => true).saturation {n.start}

/-- The states reachable from the start over edges of any kind. -/
def reachable (n : Nfa σ α) : OrdSet σ := n.reachableSaturation.elements

/-- How the states reachable over silent edges are found. -/
def closureSaturation (n : Nfa σ α) (s : OrdSet σ) : Saturation σ :=
  (n.successors Option.isNone).saturation s

/-- The states reachable from `s` over silent edges, `s` itself included. -/
def closure (n : Nfa σ α) (s : OrdSet σ) : OrdSet σ := (n.closureSaturation s).elements

/-- The targets of the edges that leave `s` and read `c`. -/
def move (n : Nfa σ α) (s : OrdSet σ) (c : α) : OrdSet σ :=
  .ofList ((n.transitions.toList.filter fun t =>
    compare t.label (some c) == .eq && s.contains t.source).map Transition.target)

theorem mem_move {n : Nfa σ α} {s : OrdSet σ} {c : α} {q : σ} :
    q ∈ n.move s c ↔ ∃ p ∈ s, .reading p q c ∈ n.transitions := by
  simp only [move, OrdSet.mem_ofList, List.mem_map, List.mem_filter, Bool.and_eq_true, beq_iff_eq,
    Ordered.compare_eq_iff, OrdSet.contains_iff, OrdSet.mem_toList]
  constructor
  · rintro ⟨⟨p, _, _⟩, ⟨ht, rfl, hp⟩, rfl⟩
    exact ⟨p, hp, ht⟩
  · rintro ⟨p, hp, ht⟩
    exact ⟨_, ⟨ht, rfl, hp⟩, rfl⟩

/-! ## Runs -/

/-- The states before the first symbol. -/
def begin (n : Nfa σ α) : OrdSet σ := n.closure {n.start}

/-- The states after one more symbol. -/
def step (n : Nfa σ α) (s : OrdSet σ) (c : α) : OrdSet σ := n.closure (n.move s c)

/-- The states after a word. -/
def run (n : Nfa σ α) (w : List α) : OrdSet σ := w.foldl n.step n.begin

/-- Whether some state after the word is accepting. -/
def accepts (n : Nfa σ α) (w : List α) : Bool := (n.run w).meets n.accepting

@[simp] theorem run_nil (n : Nfa σ α) : n.run [] = n.begin := rfl

@[simp] theorem run_concat (n : Nfa σ α) (w : List α) (c : α) :
    n.run (w ++ [c]) = n.step (n.run w) c := by simp [run]

/-! ## Reachability -/

theorem start_mem_reachable (n : Nfa σ α) : n.start ∈ n.reachable :=
  Successors.subset_closure _ _ _ (OrdSet.mem_singleton.2 rfl)

/-- An edge that leaves a reachable state ends in a reachable state. -/
theorem target_mem_reachable {n : Nfa σ α} {t : Transition σ α} (ht : t ∈ n.transitions)
    (hs : t.source ∈ n.reachable) : t.target ∈ n.reachable :=
  Successors.closure_closed _ _ hs (mem_next.2 ⟨t.label, rfl, ht⟩)

end FiniteAutomata.Nfa
