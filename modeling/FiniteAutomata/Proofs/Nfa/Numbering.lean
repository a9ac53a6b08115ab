import FiniteAutomata.Proofs.Nfa.Bisimulation

/-!
# Proofs/Nfa/Numbering — relabelling an automaton of any kind

The start, the ends of edges and the accepting states of an automaton need not be states, and edges
may read foreign symbols.  Relabelling looks at the states that paths from the start lead to
(`mem_reachable_iff_reaches`), and edges do not lead out of them; so, unlike a deterministic
automaton, every automaton is relabelled.  All numbers are reached again (`reachable_relabel`),
and only a foreign symbol on an edge that leaves one of them makes the result invalid.
-/

namespace FiniteAutomata.Nfa

variable {σ α : Type} [Ordered σ] [Ordered α] {n : Nfa σ α}

/-! ## The states that are reached -/

theorem reaches_start (n : Nfa σ α) : n.Reaches n.start := ⟨[], .nil n.start⟩

/-- An edge leads on from a state that is reached. -/
theorem Reaches.edge {p q : σ} {a : Option α} (hp : n.Reaches p)
    (ht : ⟨p, q, a⟩ ∈ n.transitions) : n.Reaches q := by
  obtain ⟨_, hpath⟩ := hp
  exact ⟨_, hpath.append (.edge ht (.nil q))⟩

/-- What holds of the start and is handed on along edges holds of every state that is reached. -/
@[elab_as_elim] theorem Reaches.induction {motive : σ → Prop} {q : σ} (hq : n.Reaches q)
    (start : motive n.start)
    (edge : ∀ {p q a}, ⟨p, q, a⟩ ∈ n.transitions → motive p → motive q) : motive q := by
  obtain ⟨_, hpath⟩ := hq
  generalize n.start = p at hpath start
  induction hpath using Path.edgeInduction with
  | nil => exact start
  | edge ht _ ih => exact ih (edge ht start)

/-- **Saturation finds what is reached**, and nothing else. -/
theorem mem_reachable_iff_reaches {q : σ} : q ∈ n.reachable ↔ n.Reaches q := by
  refine ⟨Successors.closure_induction (fun p hp => ?_) (fun p hp r hr => ?_) q,
    fun hq => hq.induction n.start_mem_reachable target_mem_reachable⟩
  · rw [OrdSet.mem_singleton.1 hp]
    exact n.reaches_start
  · obtain ⟨_, -, ht⟩ := mem_next.1 hr
    exact hp.edge ht

/-! ## The numbered automaton -/

theorem accepts_relabel (n : Nfa σ α) (w : List α) : n.relabel.accepts w = n.accepts w := by
  rw [Bool.eq_iff_iff, accepts_iff_recognizes, accepts_iff_recognizes, recognizes_relabel]

/-- **All numbers can be reached**, and they are all there is. -/
theorem reachable_relabel (n : Nfa σ α) : n.relabel.reachable = n.relabel.states := by
  have hmatched := n.bisimulation_relabel.matched_reachable
  ext i
  rw [mem_relabel_states]
  constructor
  · intro hi
    obtain ⟨p, -, hpi⟩ := hmatched.2 i hi
    exact ⟨p, hpi⟩
  · rintro ⟨p, hpi⟩
    obtain ⟨j, hj, hpj⟩ := hmatched.1 p (OrdSet.mem_of_number? hpi)
    obtain rfl := Option.some.inj (hpi.symm.trans hpj)
    exact hj

/-- **Relabelling succeeds for every automaton** and keeps its words, whatever their symbols.  The
states are the numbers up to the number of states that were reached, all of them and nothing else
can be reached again, and the result is valid exactly if no edge that leaves a state that was
reached reads a foreign symbol. -/
theorem relabel_of_any_automaton (n : Nfa σ α) :
    n.relabel? = some n.relabel ∧ (∀ w, n.relabel.accepts w = n.accepts w) ∧
      (∀ q, q ∈ n.reachable ↔ n.Reaches q) ∧
      (∀ i, i ∈ n.relabel.states ↔ 1 ≤ i ∧ i ≤ n.reachable.size) ∧
      (∀ i, i ∈ n.relabel.states ↔ n.relabel.Reaches i) ∧
      (n.relabel.Valid ↔
        ∀ t ∈ n.transitions, n.Reaches t.source → ∀ c ∈ t.label, c ∈ n.alphabet) := by
  refine ⟨n.relabel?_eq_some, n.accepts_relabel, fun _ => mem_reachable_iff_reaches, ?_, ?_, ?_⟩
  · intro i
    rw [relabel_states, OrdSet.mem_upTo]
  · intro i
    rw [← reachable_relabel, mem_reachable_iff_reaches]
  · simp only [valid_relabel_iff, mem_reachable_iff_reaches]

/-- It starts outside its states and ends there; the foreign symbol `b` leads from `p` to where
it starts. -/
def stray (p : Nat) : Nfa Nat Char where
  states := .ofList [1, 4]
  alphabet := .ofList ['a']
  start := 7
  transitions := .ofList [.silent 7 2, .reading 2 7 'a', .reading p 7 'b']
  accepting := .ofList [2, 8]

/-- Nothing leads to `4`, so it is dropped with its foreign symbol; from `2` on the symbol is read,
and it stays. -/
theorem relabel_of_stray :
    (¬(stray 4).Valid ∧ (∀ i, i ∈ (stray 4).relabel.states ↔ 1 ≤ i ∧ i ≤ 2) ∧
      (stray 4).relabel.Valid ∧ (stray 4).relabel.accepts ['a']) ∧
    ¬(stray 2).relabel.Valid ∧ (stray 2).relabel.accepts ['b'] := by
  obtain ⟨-, hwords, -, hstates, -, hvalid⟩ := relabel_of_any_automaton (stray 4)
  obtain ⟨-, hwords', -, -, -, hvalid'⟩ := relabel_of_any_automaton (stray 2)
  have hsize : (stray 4).reachable.size = 2 := by decide +kernel
  have hfour : ¬(stray 4).Reaches 4 := by
    rw [← mem_reachable_iff_reaches]
    decide +kernel
  have htwo : (stray 2).Reaches 2 := by
    rw [← mem_reachable_iff_reaches]
    decide +kernel
  refine ⟨⟨by decide, hsize ▸ hstates, hvalid.2 ?_, ?_⟩, fun h => ?_, ?_⟩
  · simpa [stray, Transition.silent, Transition.reading] using hfour
  · rw [hwords]
    decide +kernel
  · have hforeign := hvalid'.1 h (.reading 2 7 'b') (by decide) htwo 'b' rfl
    exact absurd hforeign (by decide)
  · rw [hwords']
    decide +kernel

end FiniteAutomata.Nfa
