import FiniteAutomata.Proofs.Nfa.Relabelling
import FiniteAutomata.Proofs.Order.Matching

/-!
# Proofs/Nfa/Bisimulation — automata that differ in the names of their states only

A bisimulation relates the starts of two automata, and related states have related edges and are
accepting alike.  It matches the reachable states, so if it keeps the order the two automata are
relabelled into one and the same (`Bisimulation.relabel_eq`); nothing is asked of states that cannot
be reached.  An automaton and its relabelling are an instance (`bisimulation_relabel`).
-/

namespace FiniteAutomata.Nfa

variable {σ τ ρ α : Type} [Ordered σ] [Ordered τ] [Ordered ρ] [Ordered α]

/-- `Bisimulation R n m`: related states of the two automata have related edges and are accepting
alike, and the starts are related. -/
structure Bisimulation (R : σ → τ → Prop) (n : Nfa σ α) (m : Nfa τ α) : Prop where
  alphabet_eq : n.alphabet = m.alphabet
  start : R n.start m.start
  accepting_iff : ∀ {p : σ} {i : τ}, R p i → (p ∈ n.accepting ↔ i ∈ m.accepting)
  forth : ∀ {p q : σ} {a : Option α} {i : τ}, ⟨p, q, a⟩ ∈ n.transitions → R p i →
    ∃ j, R q j ∧ ⟨i, j, a⟩ ∈ m.transitions
  back : ∀ {p : σ} {a : Option α} {i j : τ}, ⟨i, j, a⟩ ∈ m.transitions → R p i →
    ∃ q, R q j ∧ ⟨p, q, a⟩ ∈ n.transitions

namespace Bisimulation

variable {R : σ → τ → Prop} {n : Nfa σ α} {m : Nfa τ α}

theorem flip (h : Bisimulation R n m) : Bisimulation (fun i p => R p i) m n where
  alphabet_eq := h.alphabet_eq.symm
  start := h.start
  accepting_iff hpi := (h.accepting_iff hpi).symm
  forth := h.back
  back := h.forth

theorem trans {S : τ → ρ → Prop} {k : Nfa ρ α} (h : Bisimulation R n m)
    (h' : Bisimulation S m k) : Bisimulation (Relation.Comp R S) n k where
  alphabet_eq := h.alphabet_eq.trans h'.alphabet_eq
  start := ⟨m.start, h.start, h'.start⟩
  accepting_iff := by
    rintro p i ⟨x, hpx, hxi⟩
    exact (h.accepting_iff hpx).trans (h'.accepting_iff hxi)
  forth := by
    rintro p q a i ht ⟨x, hpx, hxi⟩
    obtain ⟨y, hqy, ht⟩ := h.forth ht hpx
    obtain ⟨j, hyj, ht⟩ := h'.forth ht hxi
    exact ⟨j, ⟨y, hqy, hyj⟩, ht⟩
  back := by
    rintro p a i j ht ⟨x, hpx, hxi⟩
    obtain ⟨y, hyj, ht⟩ := h'.back ht hxi
    obtain ⟨q, hqy, ht⟩ := h.back ht hpx
    exact ⟨q, ⟨y, hqy, hyj⟩, ht⟩

/-! ## Sets of states -/

/-- Related states have related successors along every kind of edge. -/
theorem exists_next (h : Bisimulation R n m) (along : Option α → Bool) {p : σ} {i : τ}
    (hpi : R p i) : ∀ q ∈ (n.successors along).next p, ∃ j ∈ (m.successors along).next i, R q j := by
  intro q hq
  obtain ⟨a, ha, ht⟩ := mem_next.1 hq
  obtain ⟨j, hqj, ht'⟩ := h.forth ht hpi
  exact ⟨j, mem_next.2 ⟨a, ha, ht'⟩, hqj⟩

/-- **The reachable states are matched.** -/
theorem matched_reachable (h : Bisimulation R n m) : OrdSet.Matched R n.reachable m.reachable := by
  have hstart : OrdSet.Matched R {n.start} {m.start} := by
    simpa [OrdSet.Matched] using h.start
  exact hstart.closure (h.exists_next _) (h.flip.exists_next _)

theorem matched_closure (h : Bisimulation R n m) {s : OrdSet σ} {t : OrdSet τ}
    (hst : OrdSet.Matched R s t) : OrdSet.Matched R (n.closure s) (m.closure t) :=
  hst.closure (h.exists_next _) (h.flip.exists_next _)

theorem exists_mem_move (h : Bisimulation R n m) {s : OrdSet σ} {t : OrdSet τ}
    (hst : ∀ p ∈ s, ∃ i ∈ t, R p i) (c : α) : ∀ q ∈ n.move s c, ∃ j ∈ m.move t c, R q j := by
  intro q hq
  obtain ⟨p, hp, ht⟩ := mem_move.1 hq
  obtain ⟨i, hi, hpi⟩ := hst p hp
  obtain ⟨j, hqj, ht'⟩ := h.forth ht hpi
  exact ⟨j, mem_move.2 ⟨i, hi, ht'⟩, hqj⟩

/-- Runs that hold matched sets still do after one more symbol. -/
theorem matched_step (h : Bisimulation R n m) {s : OrdSet σ} {t : OrdSet τ}
    (hst : OrdSet.Matched R s t) (c : α) : OrdSet.Matched R (n.step s c) (m.step t c) :=
  h.matched_closure ⟨h.exists_mem_move hst.1 c, h.flip.exists_mem_move hst.2 c⟩

/-! ## Relabelling -/

section Relabel

variable (h : Bisimulation R n m) (hR : KeepsOrder R)

include h hR

theorem mem_relabel_accepting_of_mem {k : Nat} (hk : k ∈ n.relabel.accepting) :
    k ∈ m.relabel.accepting := by
  obtain ⟨p, hp, hpk⟩ := mem_relabel_accepting.1 hk
  obtain ⟨i, hpi, hik⟩ := hR.exists_number?_eq h.matched_reachable hpk
  exact mem_relabel_accepting.2 ⟨i, (h.accepting_iff hpi).1 hp, hik⟩

theorem mem_relabel_transitions_of_mem {k l : Nat} {a : Option α}
    (ht : ⟨k, l, a⟩ ∈ n.relabel.transitions) : ⟨k, l, a⟩ ∈ m.relabel.transitions := by
  obtain ⟨p, q, ht, hpk, hql⟩ := mem_relabel_transitions.1 ht
  obtain ⟨i, hpi, hik⟩ := hR.exists_number?_eq h.matched_reachable hpk
  obtain ⟨j, hqj, ht'⟩ := h.forth ht hpi
  exact mem_relabel_transitions.2
    ⟨i, j, ht', hik, (hR.number?_eq h.matched_reachable hqj).symm.trans hql⟩

/-- **Automata that differ in names only are relabelled into one.** -/
theorem relabel_eq : n.relabel = m.relabel := by
  refine Nfa.ext ?_ ?_ ?_ (OrdSet.ext fun t => ?_) (OrdSet.ext fun k => ?_)
  · rw [relabel_states, relabel_states, hR.size_eq h.matched_reachable]
  · rw [relabel_alphabet, relabel_alphabet, h.alphabet_eq]
  · have hstart := hR.number?_eq h.matched_reachable h.start
    rw [number?_start, number?_start] at hstart
    exact Option.some.inj hstart
  · exact ⟨h.mem_relabel_transitions_of_mem hR, h.flip.mem_relabel_transitions_of_mem hR.flip⟩
  · exact ⟨h.mem_relabel_accepting_of_mem hR, h.flip.mem_relabel_accepting_of_mem hR.flip⟩

end Relabel

end Bisimulation

/-- **Giving every reachable state its number is a bisimulation.** -/
theorem bisimulation_relabel (n : Nfa σ α) :
    Bisimulation (fun p i => n.reachable.number? p = some i) n n.relabel where
  alphabet_eq := n.relabel_alphabet.symm
  start := n.number?_start
  accepting_iff hpi := by rw [mem_relabel_accepting, OrdSet.exists_mem_number?_iff hpi]
  forth {p q a i} ht hpi := by
    obtain ⟨j, hj⟩ := exists_number?_target ht hpi
    exact ⟨j, hj, mem_relabel_transitions.2 ⟨p, q, ht, hpi, hj⟩⟩
  back {p a i j} ht hpi := by
    obtain ⟨p', q, ht, hp', hq⟩ := mem_relabel_transitions.1 ht
    obtain rfl := OrdSet.number?_injective hp' hpi
    exact ⟨q, hq, ht⟩

end FiniteAutomata.Nfa
