import FiniteAutomata.Proofs.Nfa.CanonicalForm

/-!
# Proofs/Nfa/Renaming — new names for the states

Edges are carried along with the names of their ends, so a renamed automaton simulates the one it was
made from, whatever the new names: no word is lost, and no state that was reached
(`simulation_mapStates`).  States that get one name are run together, and edges that did not meet may
then be joined to new paths.  Where the states that occur keep apart, listed or not, nothing is added
either (`mapStates_simulates`).
-/

namespace FiniteAutomata.Nfa

variable {σ τ α : Type} [Ordered σ] [Ordered τ] [Ordered α]

/-- `Simulation R n m`: the start of `n` is related to that of `m`, and whatever a state of `n` can
do the related states of `m` can do too. -/
structure Simulation (R : σ → τ → Prop) (n : Nfa σ α) (m : Nfa τ α) : Prop where
  start : R n.start m.start
  accepting : ∀ {p : σ} {i : τ}, R p i → p ∈ n.accepting → i ∈ m.accepting
  forth : ∀ {p q : σ} {a : Option α} {i : τ}, ⟨p, q, a⟩ ∈ n.transitions → R p i →
    ∃ j, R q j ∧ ⟨i, j, a⟩ ∈ m.transitions

section Simulation

variable {R : σ → τ → Prop} {n : Nfa σ α} {m : Nfa τ α}

/-- A bisimulation is a simulation in either direction. -/
theorem Bisimulation.simulation (h : Bisimulation R n m) : Simulation R n m where
  start := h.start
  accepting hpi := (h.accepting_iff hpi).1
  forth := h.forth

namespace Simulation

variable (h : Simulation R n m)

include h

/-- **No word is lost.** -/
theorem accepts {w : List α} (hw : n.accepts w) : m.accepts w := by
  obtain ⟨p, hp, hpath⟩ := accepts_iff_recognizes.1 hw
  obtain ⟨i, hpi, hpath'⟩ := hpath.simulate h.forth h.start
  exact accepts_iff_recognizes.2 ⟨i, h.accepting hpi hp, hpath'⟩

/-- **No state that is reached is lost.** -/
theorem exists_mem_reachable {p : σ} (hp : p ∈ n.reachable) : ∃ i ∈ m.reachable, R p i := by
  obtain ⟨w, hpath⟩ := mem_reachable_iff_reaches.1 hp
  obtain ⟨i, hpi, hpath'⟩ := hpath.simulate h.forth h.start
  exact ⟨i, mem_reachable_iff_reaches.2 ⟨w, hpath'⟩, hpi⟩

end Simulation

end Simulation

/-! ## Renaming -/

/-- **A renamed automaton simulates the one it was made from**, whatever the names. -/
theorem simulation_mapStates (f : σ → τ) (n : Nfa σ α) :
    Simulation (fun p i => f p = i) n (n.mapStates f) where
  start := rfl
  accepting := by
    rintro p _ rfl hp
    exact OrdSet.mem_map.2 ⟨p, hp, rfl⟩
  forth := by
    rintro p q a _ ht rfl
    exact ⟨f q, rfl, OrdSet.mem_map.2 ⟨_, ht, rfl⟩⟩

theorem map_reachable_subset (f : σ → τ) (n : Nfa σ α) :
    n.reachable.map f ⊆ (n.mapStates f).reachable := by
  intro i hi
  obtain ⟨p, hp, rfl⟩ := OrdSet.mem_map.1 hi
  obtain ⟨_, hi, rfl⟩ := (n.simulation_mapStates f).exists_mem_reachable hp
  exact hi

/-- **Renaming loses nothing**, in an automaton of any kind and for new names of any kind: the words
that were accepted still are, and what was reached still is, under its new name.  If the states that
occur keep their names apart, it adds nothing either: no other word is accepted, and exactly the
renamed states are reached. -/
theorem mapStates_simulates (n : Nfa σ α) (f : σ → τ) :
    (∀ w, n.accepts w → (n.mapStates f).accepts w) ∧
      n.reachable.map f ⊆ (n.mapStates f).reachable ∧
      ((∀ p ∈ n.occurring, ∀ q ∈ n.occurring, f p = f q → p = q) →
        (∀ w, (n.mapStates f).accepts w → n.accepts w) ∧
          (n.mapStates f).reachable = n.reachable.map f) := by
  refine ⟨fun _ => (n.simulation_mapStates f).accepts, n.map_reachable_subset f, fun hf => ?_⟩
  have hback := (bisimulation_mapStates hf).flip.simulation
  refine ⟨fun _ => hback.accepts, OrdSet.ext fun i => ⟨fun hi => ?_, n.map_reachable_subset f i⟩⟩
  obtain ⟨p, hp, -, hpi⟩ := hback.exists_mem_reachable hi
  exact OrdSet.mem_map.2 ⟨p, hp, hpi⟩

/-- The states that occur keep apart although `0` and `1` do not, so that the start and the ends of
edges outside the listed states are renamed one by one; where they are run together, the edge for
the foreign symbol is reached, and a word is accepted that was not. -/
theorem mapStates_of_stray :
    (((stray 4).mapStates fun q => (q - 1) * (q - 1)).reachable = .ofList [1, 36] ∧
      ((stray 4).mapStates fun q => (q - 1) * (q - 1)).accepts ['a', 'a'] ∧
      ¬((stray 4).mapStates fun q => (q - 1) * (q - 1)).accepts ['b']) ∧
    ¬(stray 4).accepts ['b'] ∧ ((stray 4).mapStates (min 2)).accepts ['b'] ∧
      ((stray 4).mapStates (min 2)).accepts ['a', 'a'] := by
  obtain ⟨hwords, -, hapart⟩ := mapStates_simulates (stray 4) fun q => (q - 1) * (q - 1)
  obtain ⟨hwords', -, -⟩ := mapStates_simulates (stray 4) (min 2)
  have hinjective : ∀ p ∈ (stray 4).occurring, ∀ q ∈ (stray 4).occurring,
      (p - 1) * (p - 1) = (q - 1) * (q - 1) → p = q := by
    decide +kernel
  obtain ⟨hback, hreachable⟩ := hapart hinjective
  have hreached : (stray 4).reachable = .ofList [2, 7] := by decide +kernel
  have ha : (stray 4).accepts ['a', 'a'] := by decide +kernel
  have hb : ¬(stray 4).accepts ['b'] := by decide +kernel
  refine ⟨⟨?_, hwords _ ha, fun h => hb (hback _ h)⟩, hb, by decide +kernel, hwords' _ ha⟩
  rw [hreachable, hreached]
  decide

end FiniteAutomata.Nfa
