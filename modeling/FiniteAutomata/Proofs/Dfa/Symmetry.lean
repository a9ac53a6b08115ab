import FiniteAutomata.Proofs.Dfa.Bisimulation
import FiniteAutomata.Proofs.Dfa.Equality

/-!
# Proofs/Dfa/Symmetry — comparing automata of any kind is reflexive and symmetric

The start, the targets of entries and the accepting states of an automaton need not be states.  A
pair with such a component is no state of a product and has no row there, so from it the product
falls into its own dead state although its operands may run on: what the comparison finds is then
not what they accept.  It finds the same on both sides, though.  Swapping the components is a
bisimulation of the two products (`bisimulation_swap`), and a product of an automaton with itself
stays on the diagonal as long as it runs (`fst_eq_snd_of_run_product?`).
-/

namespace FiniteAutomata.Dfa

variable {σ τ α : Type} [Ordered σ] [Ordered τ] [Ordered α] {a : Dfa σ α} {b : Dfa τ α}

/-! ## Bisimilar automata accept the same words -/

section Bisimulation

variable {R : σ → τ → Prop} (h : Bisimulation R a b)

include h

/-- Words lead to related states, or both runs are dead. -/
theorem Bisimulation.run (w : List α) : Option.Rel R (a.run w) (b.run w) := by
  induction w using List.reverseRecOn with
  | nil => exact h.start
  | append_singleton w c ih =>
    rw [run_concat, run_concat]
    exact h.step ih c

/-- **Bisimilar automata accept the same words**, of any symbols. -/
theorem Bisimulation.accepts_eq (w : List α) : a.accepts w = b.accepts w := h.acceptsAt_eq (h.run w)

theorem Bisimulation.isEmpty_eq : a.isEmpty = b.isEmpty := by
  rw [Bool.eq_iff_iff, isEmpty_iff, isEmpty_iff, h.alphabet_eq]
  simp only [h.accepts_eq]

end Bisimulation

/-! ## The operands swapped -/

/-- **Swapping the components is a bisimulation** of the products in either order, also where pairs
are no states. -/
theorem bisimulation_swap {combine combine' : Bool → Bool → Bool} {p : Dfa (ProductState σ τ) α}
    {p' : Dfa (ProductState τ σ) α} (hp : product? combine a b = some p)
    (hp' : product? combine' b a = some p') (hcombine : ∀ x y, combine x y = combine' y x) :
    Bisimulation (fun q j => q.swap = j) p p' := by
  refine (tabulates_product? hp).bisimulation (tabulates_product? hp') ?_ ?_ ?_ ?_ ?_
  · rw [(alphabet_product? hp).2, (alphabet_product? hp').2, (alphabet_product? hp).1]
  · rw [start_product? hp, start_product? hp']
    exact .some rfl
  · rintro q _ rfl
    rw [states_product? hp, states_product? hp', OrdSet.mem_product, OrdSet.mem_product]
    exact and_comm
  · rintro q _ rfl c
    rfl
  · rintro q _ rfl
    rw [mem_product?_accepting hp, mem_product?_accepting hp', hcombine, and_comm (a := q.1 ∈ _)]
    rfl

/-- The comparison does not depend on which automaton comes first. -/
theorem equal?_comm (a : Dfa σ α) (b : Dfa τ α) : equal? a b = equal? b a := by
  by_cases halphabet : a.alphabet = b.alphabet
  · obtain ⟨p, hp⟩ : ∃ p, symmetricDifference? a b = some p := exists_product? xor halphabet
    obtain ⟨p', hp'⟩ : ∃ p', symmetricDifference? b a = some p' := exists_product? xor halphabet.symm
    have hempty : p.isEmpty = p'.isEmpty := (bisimulation_swap hp hp' Bool.xor_comm).isEmpty_eq
    rw [equal?, equal?, hp, hp', Option.map_some, Option.map_some, hempty]
  · rw [equal?_eq_none.2 halphabet, equal?_eq_none.2 (Ne.symm halphabet)]

/-! ## Twice the same operand -/

section Diagonal

variable {combine : Bool → Bool → Bool} {p : Dfa (ProductState σ σ) α}
  (hp : product? combine a a = some p)

include hp

/-- **Beside itself an automaton stays on the diagonal**, as long as the product runs at all. -/
theorem fst_eq_snd_of_run_product? {w : List α} {q : ProductState σ σ} (h : p.run w = some q) :
    q.1 = q.2 := by
  induction w using List.reverseRecOn generalizing q with
  | nil =>
    obtain rfl := Option.some.inj ((start_product? hp).symm.trans h)
    rfl
  | append_singleton w c ih =>
    obtain ⟨q', hrun, hstep⟩ := run_concat_eq_some.1 h
    obtain ⟨-, -, rfl⟩ := (tabulates_product? hp).step_eq_some_iff.1 hstep
    exact congrArg (a.step · c) (ih hrun)

/-- What rejects where both operands agree is empty beside itself. -/
theorem isEmpty_of_diagonal (hcombine : ∀ x, combine x x = false) : p.isEmpty := by
  rw [isEmpty_iff]
  intro w _
  rw [Bool.eq_false_iff]
  intro hw
  obtain ⟨q, hrun, hq⟩ := accepts_iff_exists.1 hw
  obtain ⟨-, hq⟩ := (mem_product?_accepting hp).1 hq
  rw [fst_eq_snd_of_run_product? hp hrun, hcombine] at hq
  exact nomatch hq

end Diagonal

/-- An automaton is found equal to itself. -/
theorem equal?_self (a : Dfa σ α) : equal? a a = some true := by
  obtain ⟨p, hp⟩ : ∃ p, symmetricDifference? a a = some p := exists_product? xor rfl
  rw [equal?, hp, Option.map_some, isEmpty_of_diagonal hp Bool.xor_self]

/-- **Comparing is reflexive and symmetric on automata of any kind**: every automaton is found equal
to itself, and in either order two automata are found equal, found different or not compared. -/
theorem equal?_reflexive_symmetric (a : Dfa σ α) (b : Dfa τ α) :
    equal? a a = some true ∧ equal? a b = equal? b a :=
  ⟨equal?_self a, equal?_comm a b⟩

end FiniteAutomata.Dfa
