import FiniteAutomata.Nfa.Relabel
import FiniteAutomata.Proofs.Nfa.Acceptance

/-!
# Proofs/Nfa/Relabelling — numbering the reachable states keeps the language

An edge of the relabelled automaton joins the numbers of the ends of an edge that leaves a reachable
state (`mem_relabel_transitions`).  So giving every state its number is a simulation in both
directions, and the two automata recognize the same words (`recognizes_relabel`).
-/

namespace FiniteAutomata

variable {σ α : Type}

theorem Transition.renumber?_eq_some {number? : σ → Option Nat} {t : Transition σ α}
    {t' : Transition Nat α} : t.renumber? number? = some t' ↔
      number? t.source = some t'.source ∧ number? t.target = some t'.target ∧
        t.label = t'.label := by
  obtain ⟨p, q, a⟩ := t
  obtain ⟨i, j, b⟩ := t'
  refine ⟨?_, ?_⟩
  · intro h
    obtain ⟨i', hi, h⟩ := Option.bind_eq_some_iff.1 h
    obtain ⟨j', hj, h⟩ := Option.bind_eq_some_iff.1 h
    obtain ⟨rfl, rfl, rfl⟩ := Transition.mk.inj (Option.some.inj h)
    exact ⟨hi, hj, rfl⟩
  · rintro ⟨hp, hq, ha⟩
    obtain rfl : a = b := ha
    simp only [renumber?, hp, hq]
    rfl

namespace Nfa

variable [Ordered σ] [Ordered α]

/-! ## The parts of the relabelled automaton -/

/-- The relabelled automaton with its look-ups written out. -/
theorem relabel_eq (n : Nfa σ α) : ∃ start ts, n.reachable.number? n.start = some start ∧
    (n.transitions.filter fun t => n.reachable.contains t.source).toList.mapM
      (·.renumber? n.reachable.number?) = some ts ∧
    n.relabel = ⟨.upTo n.reachable.size, n.alphabet, start, .ofList ts,
      n.accepting.filterMap n.reachable.number?⟩ := by
  have h := n.relabel?_eq_some
  obtain ⟨start, hstart, h⟩ := Option.bind_eq_some_iff.1 h
  obtain ⟨ts, hts, h⟩ := Option.bind_eq_some_iff.1 h
  exact ⟨start, ts, hstart, hts, (Option.some.inj h).symm⟩

@[simp] theorem relabel_states (n : Nfa σ α) : n.relabel.states = .upTo n.reachable.size := by
  obtain ⟨_, _, _, _, h⟩ := n.relabel_eq
  rw [h]

theorem mem_relabel_states {n : Nfa σ α} {i : Nat} :
    i ∈ n.relabel.states ↔ ∃ q, n.reachable.number? q = some i := by
  rw [relabel_states, OrdSet.mem_upTo_size]

@[simp] theorem relabel_alphabet (n : Nfa σ α) : n.relabel.alphabet = n.alphabet := by
  obtain ⟨_, _, _, _, h⟩ := n.relabel_eq
  rw [h]

theorem number?_start (n : Nfa σ α) : n.reachable.number? n.start = some n.relabel.start := by
  obtain ⟨_, _, hstart, _, h⟩ := n.relabel_eq
  rw [h, hstart]

@[simp] theorem mem_relabel_accepting {n : Nfa σ α} {i : Nat} :
    i ∈ n.relabel.accepting ↔ ∃ q ∈ n.accepting, n.reachable.number? q = some i := by
  obtain ⟨_, _, _, _, h⟩ := n.relabel_eq
  rw [h, OrdSet.mem_filterMap]

/-- An edge that leaves a state with a number ends in one. -/
theorem exists_number?_target {n : Nfa σ α} {p q : σ} {a : Option α} {i : Nat}
    (ht : ⟨p, q, a⟩ ∈ n.transitions) (hp : n.reachable.number? p = some i) :
    ∃ j, n.reachable.number? q = some j :=
  OrdSet.exists_number? (target_mem_reachable ht (OrdSet.mem_of_number? hp))

/-- **The edges join the numbers of the ends.** -/
theorem mem_relabel_transitions {n : Nfa σ α} {i j : Nat} {a : Option α} :
    ⟨i, j, a⟩ ∈ n.relabel.transitions ↔ ∃ p q, ⟨p, q, a⟩ ∈ n.transitions ∧
      n.reachable.number? p = some i ∧ n.reachable.number? q = some j := by
  obtain ⟨_, ts, _, hts, h⟩ := n.relabel_eq
  rw [h, OrdSet.mem_ofList, mem_of_mapM hts]
  refine ⟨?_, ?_⟩
  · rintro ⟨⟨p, q, b⟩, ht, hij⟩
    obtain ⟨hp, hq, rfl⟩ := Transition.renumber?_eq_some.1 hij
    exact ⟨p, q, (OrdSet.mem_filter.1 ht).1, hp, hq⟩
  · rintro ⟨p, q, ht, hp, hq⟩
    have hreached : n.reachable.contains p := OrdSet.contains_iff.2 (OrdSet.mem_of_number? hp)
    exact ⟨⟨p, q, a⟩, OrdSet.mem_filter.2 ⟨ht, hreached⟩,
      Transition.renumber?_eq_some.2 ⟨hp, hq, rfl⟩⟩

/-! ## Words and validity -/

/-- **Relabelling keeps the language.** -/
theorem recognizes_relabel {n : Nfa σ α} {w : List α} :
    n.relabel.Recognizes w ↔ n.Recognizes w := by
  refine ⟨?_, ?_⟩
  · rintro ⟨i, hi, hpath⟩
    -- numbers are read backwards: no two states share one
    have hedge : ∀ {i j : Nat} {a : Option α} {p : σ}, ⟨i, j, a⟩ ∈ n.relabel.transitions →
        n.reachable.number? p = some i →
        ∃ q, n.reachable.number? q = some j ∧ ⟨p, q, a⟩ ∈ n.transitions := by
      intro i j a p ht hi
      obtain ⟨p', q, ht, hp', hq⟩ := mem_relabel_transitions.1 ht
      obtain rfl : p = p' := OrdSet.number?_injective hi hp'
      exact ⟨q, hq, ht⟩
    obtain ⟨q, hq, hqi⟩ := mem_relabel_accepting.1 hi
    obtain ⟨q', hq', hpath⟩ := hpath.simulate hedge n.number?_start
    obtain rfl : q = q' := OrdSet.number?_injective hqi hq'
    exact ⟨q, hq, hpath⟩
  · rintro ⟨q, hq, hpath⟩
    have hedge : ∀ {p q : σ} {a : Option α} {i : Nat}, ⟨p, q, a⟩ ∈ n.transitions →
        n.reachable.number? p = some i →
        ∃ j, n.reachable.number? q = some j ∧ ⟨i, j, a⟩ ∈ n.relabel.transitions := by
      intro p q a i ht hp
      obtain ⟨j, hj⟩ := exists_number?_target ht hp
      exact ⟨j, hj, mem_relabel_transitions.2 ⟨p, q, ht, hp, hj⟩⟩
    obtain ⟨i, hi, hpath⟩ := hpath.simulate hedge n.number?_start
    exact ⟨i, mem_relabel_accepting.2 ⟨q, hq, hi⟩, hpath⟩

/-- **A relabelled automaton is valid exactly if no reachable state is left by a foreign
symbol.** -/
theorem valid_relabel_iff {n : Nfa σ α} : n.relabel.Valid ↔
    ∀ t ∈ n.transitions, t.source ∈ n.reachable → ∀ c ∈ t.label, c ∈ n.alphabet := by
  refine ⟨?_, ?_⟩
  · rintro ⟨_, hedges, _⟩ ⟨p, q, a⟩ ht hp c hc
    obtain ⟨i, hi⟩ := OrdSet.exists_number? hp
    obtain ⟨j, hj⟩ := exists_number?_target ht hi
    have hij : ⟨i, j, a⟩ ∈ n.relabel.transitions :=
      mem_relabel_transitions.2 ⟨p, q, ht, hi, hj⟩
    have hlabel := (hedges _ hij).2.2 c hc
    rwa [relabel_alphabet] at hlabel
  · intro h
    have hnumber : ∀ {q : σ} {i : Nat}, n.reachable.number? q = some i → i ∈ n.relabel.states :=
      fun hq => mem_relabel_states.2 ⟨_, hq⟩
    refine ⟨hnumber n.number?_start, ?_, ?_⟩
    · rintro ⟨i, j, a⟩ ht
      obtain ⟨p, q, ht, hi, hj⟩ := mem_relabel_transitions.1 ht
      rw [relabel_alphabet]
      exact ⟨hnumber hi, hnumber hj, h _ ht (OrdSet.mem_of_number? hi)⟩
    · intro i hi
      obtain ⟨q, _, hq⟩ := mem_relabel_accepting.1 hi
      exact hnumber hq

theorem valid_relabel {n : Nfa σ α} (h : n.Valid) : n.relabel.Valid :=
  valid_relabel_iff.2 fun t ht _ => (h.2.1 t ht).2.2

/-- What can be reached in a valid automaton is one of its states. -/
theorem Valid.reachable_subset {n : Nfa σ α} (hn : n.Valid) : n.reachable ⊆ n.states := by
  refine Successors.closure_induction (fun p hp => ?_) fun p _ q hq => ?_
  · rw [OrdSet.mem_singleton.1 hp]
    exact hn.1
  · obtain ⟨_, _, ht⟩ := mem_next.1 hq
    exact (hn.2.1 _ ht).2.1

end Nfa

end FiniteAutomata
