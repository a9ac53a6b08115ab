import FiniteAutomata.Proofs.Nfa.Combination
import FiniteAutomata.Proofs.Nfa.Numbering

/-!
# Proofs/Nfa/CanonicalForm — what relabelling forgets

Two automata are relabelled into one exactly if some bisimulation between them keeps the order of
the states (`relabel_eq_iff`).  So the relabelled automaton stands for all that agree with it
once the names of the states, the states that are not reached, and what leaves or accepts there
are left out of account.
-/

namespace FiniteAutomata.Nfa

variable {σ τ α : Type} [Ordered σ] [Ordered τ] [Ordered α] {n : Nfa σ α}

/-- **The relabelled automaton is a canonical form** for automata that differ in names only. -/
theorem relabel_eq_iff {m : Nfa τ α} :
    n.relabel = m.relabel ↔ ∃ R, KeepsOrder R ∧ Bisimulation R n m := by
  constructor
  · intro h
    have hm : Bisimulation (fun k i => m.reachable.number? i = some k) n.relabel m :=
      h ▸ m.bisimulation_relabel.flip
    -- states with the same number are related
    exact ⟨_, (KeepsOrder.number n.reachable).comp (KeepsOrder.number m.reachable).flip,
      n.bisimulation_relabel.trans hm⟩
  · rintro ⟨_, hR, h⟩
    exact h.relabel_eq hR

/-! ## Other names -/

/-- Renaming is a bisimulation if the states that occur keep their names apart. -/
theorem bisimulation_mapStates {f : σ → τ}
    (hf : ∀ p ∈ n.occurring, ∀ q ∈ n.occurring, f p = f q → p = q) :
    Bisimulation (fun p i => p ∈ n.occurring ∧ f p = i) n (n.mapStates f) where
  alphabet_eq := rfl
  start := ⟨n.start_mem_occurring, rfl⟩
  accepting_iff := by
    rintro p _ ⟨hp, rfl⟩
    rw [mapStates, OrdSet.mem_map]
    constructor
    · intro h
      exact ⟨p, h, rfl⟩
    · rintro ⟨q, hq, he⟩
      exact hf q (mem_occurring_of_mem_accepting hq) p hp he ▸ hq
  forth := by
    rintro p q a _ ht ⟨-, rfl⟩
    exact ⟨f q, ⟨target_mem_occurring ht, rfl⟩, OrdSet.mem_map.2 ⟨_, ht, rfl⟩⟩
  back := by
    rintro p a _ _ ht ⟨hp, rfl⟩
    obtain ⟨p', q, he, rfl, hpq⟩ := mem_map_transitions.1 (OrdSet.mem_map.1 ht)
    obtain rfl := hf p hp p' (source_mem_occurring hpq) he
    exact ⟨q, ⟨target_mem_occurring hpq, rfl⟩, hpq⟩

/-- **Names in the same order are relabelled alike.** -/
theorem relabel_mapStates {f : σ → τ} (hf : IncreasingOn f n.occurring) :
    (n.mapStates f).relabel = n.relabel := by
  have hR := KeepsOrder.of_increasingOn hf
  have hinjective : ∀ p ∈ n.occurring, ∀ q ∈ n.occurring, f p = f q → p = q :=
    fun p hp q hq he => (hR.eq_iff ⟨hp, rfl⟩ ⟨hq, rfl⟩).2 he
  exact (relabel_eq_iff.2 ⟨_, hR, bisimulation_mapStates hinjective⟩).symm

/-! ## What is not reached -/

/-- Automata with one start are relabelled alike if they have the same edges out of the states that
are reached, and the same of these are accepting. -/
theorem relabel_eq_of_agree {m : Nfa σ α} (halphabet : n.alphabet = m.alphabet)
    (hstart : n.start = m.start)
    (hedges : ∀ {p q a}, n.Reaches p → (⟨p, q, a⟩ ∈ n.transitions ↔ ⟨p, q, a⟩ ∈ m.transitions))
    (haccepting : ∀ {p}, n.Reaches p → (p ∈ n.accepting ↔ p ∈ m.accepting)) :
    n.relabel = m.relabel := by
  refine relabel_eq_iff.2 ⟨fun p i => n.Reaches p ∧ p = i, ?_, halphabet, ?_, ?_, ?_, ?_⟩
  · rintro p q _ _ ⟨-, rfl⟩ ⟨-, rfl⟩
    rfl
  · exact ⟨n.reaches_start, hstart⟩
  · rintro p _ ⟨hp, rfl⟩
    exact haccepting hp
  · rintro p q a _ ht ⟨hp, rfl⟩
    exact ⟨q, ⟨hp.edge ht, rfl⟩, (hedges hp).1 ht⟩
  · rintro p a _ q ht ⟨hp, rfl⟩
    have ht := (hedges hp).2 ht
    exact ⟨q, ⟨hp.edge ht, rfl⟩, ht⟩

/-- Puts states, edges and accepting states beside those that are there. -/
def enlarge (n : Nfa σ α) (states : OrdSet σ) (transitions : OrdSet (Transition σ α))
    (accepting : OrdSet σ) : Nfa σ α where
  states := n.states ∪ states
  alphabet := n.alphabet
  start := n.start
  transitions := n.transitions ∪ transitions
  accepting := n.accepting ∪ accepting

/-- **What is put where nothing leads is not noticed.** -/
theorem relabel_enlarge {states : OrdSet σ} {transitions : OrdSet (Transition σ α)}
    {accepting : OrdSet σ} (hedges : ∀ t ∈ transitions, ¬n.Reaches t.source)
    (haccepting : ∀ q ∈ accepting, ¬n.Reaches q) :
    (n.enlarge states transitions accepting).relabel = n.relabel := by
  refine Eq.symm (relabel_eq_of_agree rfl rfl (fun {p q a} hp => ?_) fun {p} hp => ?_)
  · have hnew : ⟨p, q, a⟩ ∉ transitions := fun ht => hedges _ ht hp
    simp [enlarge, hnew]
  · have hnew : p ∉ accepting := fun hacc => haccepting p hacc hp
    simp [enlarge, hnew]

/-- **Relabelling gives a canonical form.**  It does not depend on names as long as the states that
occur keep their order, nor on any states that are put beside them, on edges out of states that are
not reached or on such states being accepting; and a relabelled automaton is its own relabelled
automaton. -/
theorem relabel_canonical (n : Nfa σ α) :
    (∀ f : σ → τ, IncreasingOn f n.occurring → (n.mapStates f).relabel = n.relabel) ∧
    (∀ states transitions accepting, (∀ t ∈ transitions, ¬n.Reaches t.source) →
      (∀ q ∈ accepting, ¬n.Reaches q) →
        (n.enlarge states transitions accepting).relabel = n.relabel) ∧
    n.relabel.relabel = n.relabel := by
  refine ⟨fun _ => relabel_mapStates, fun _ _ _ => relabel_enlarge, ?_⟩
  exact (relabel_eq_iff.2 ⟨_, KeepsOrder.number _, n.bisimulation_relabel⟩).symm

/-- Subtraction stops at zero, so `0` and `1` would get one name; but `0` does not occur.  Nothing
leads to `3` and `4`. -/
theorem relabel_of_renamed_stray :
    (IncreasingOn (fun q => (q - 1) * (q - 1)) (stray 4).occurring ∧
      ((stray 4).mapStates fun q => (q - 1) * (q - 1)).relabel = (stray 4).relabel) ∧
    (¬(stray 4).Reaches 3 ∧ ¬(stray 4).Reaches 4 ∧
      ((stray 4).enlarge {3} (.ofList [.reading 3 7 'c', .silent 4 2]) (.ofList [3, 4])).relabel =
        (stray 4).relabel) ∧
    (stray 4).relabel.relabel = (stray 4).relabel := by
  have hincreasing : IncreasingOn (fun q => (q - 1) * (q - 1)) (stray 4).occurring := by
    decide +kernel
  have hthree : ¬(stray 4).Reaches 3 := by
    rw [← mem_reachable_iff_reaches]
    decide +kernel
  have hfour : ¬(stray 4).Reaches 4 := by
    rw [← mem_reachable_iff_reaches]
    decide +kernel
  obtain ⟨hnames, hbeside, hagain⟩ := relabel_canonical (τ := Nat) (stray 4)
  refine ⟨⟨hincreasing, hnames _ hincreasing⟩, ⟨hthree, hfour, hbeside _ _ _ ?_ ?_⟩, hagain⟩
  · simp [hthree, hfour, Transition.reading, Transition.silent]
  · simp [hthree, hfour]

end FiniteAutomata.Nfa
