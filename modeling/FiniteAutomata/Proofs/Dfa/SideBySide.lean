import FiniteAutomata.Proofs.Dfa.Validity

/-!
# Proofs/Dfa/SideBySide — the product runs both automata at once

The dead state is an ordinary one here, so the pairs are closed under every step of two valid
automata: over the common alphabet the product is never dead and its pair is that of the two runs
(`run_product?`).  The symmetric difference is therefore empty exactly if no word tells the automata
apart (`isEmpty_symmetricDifference?`).
-/

namespace FiniteAutomata.Dfa

variable {σ τ α : Type} [Ordered σ] [Ordered τ] [Ordered α]

/-- A run of a valid automaton ends in a state or in the dead one. -/
theorem Valid.run_mem_withDead {d : Dfa σ α} (hd : d.Valid) (w : List α) : d.run w ∈ d.withDead :=
  mem_withDead.2 fun _ hq => hd.run_mem hq

variable {combine : Bool → Bool → Bool} {a : Dfa σ α} {b : Dfa τ α}
  {p : Dfa (ProductState σ τ) α}

/-- Automata over one alphabet have a product. -/
theorem exists_product? (combine : Bool → Bool → Bool) (h : a.alphabet = b.alphabet) :
    ∃ p, product? combine a b = some p := ⟨_, if_pos h⟩

/-- Exactly automata over one alphabet have a product. -/
theorem product?_eq_none : product? combine a b = none ↔ a.alphabet ≠ b.alphabet :=
  ite_eq_right_iff.trans (by simp)

section Product

variable (h : product? combine a b = some p)

include h

theorem alphabet_product? : a.alphabet = b.alphabet ∧ p.alphabet = a.alphabet := by
  obtain ⟨halphabet, h⟩ := Option.ite_none_right_eq_some.1 h
  obtain rfl := Option.some.inj h
  exact ⟨halphabet, rfl⟩

theorem start_product? : p.start = some (a.start, b.start) := by
  obtain ⟨_, h⟩ := Option.ite_none_right_eq_some.1 h
  obtain rfl := Option.some.inj h
  rfl

theorem mem_product?_accepting {q : ProductState σ τ} : q ∈ p.accepting ↔
    (q.1 ∈ a.withDead ∧ q.2 ∈ b.withDead) ∧
      combine (a.acceptsAt q.1) (b.acceptsAt q.2) = true := by
  obtain ⟨_, h⟩ := Option.ite_none_right_eq_some.1 h
  obtain rfl := Option.some.inj h
  rw [OrdSet.mem_filter, OrdSet.mem_product]

theorem states_product? : p.states = a.withDead.product b.withDead := by
  obtain ⟨_, h⟩ := Option.ite_none_right_eq_some.1 h
  obtain rfl := Option.some.inj h
  rfl

/-- A step is a step of each. -/
theorem tabulates_product? : p.Tabulates fun q c => (a.step q.1 c, b.step q.2 c) := by
  obtain ⟨_, h⟩ := Option.ite_none_right_eq_some.1 h
  obtain rfl := Option.some.inj h
  rfl

theorem valid_product? (ha : a.Valid) (hb : b.Valid) : p.Valid := by
  refine (tabulates_product? h).valid ?_ ?_ ?_
  · intro q hq
    obtain rfl := Option.some.inj ((start_product? h).symm.trans hq)
    rw [states_product? h]
    exact OrdSet.mem_product.2 ⟨ha.start_mem_withDead, hb.start_mem_withDead⟩
  · intro q _ c _
    rw [states_product? h]
    exact OrdSet.mem_product.2 ⟨ha.step_mem_withDead q.1 c, hb.step_mem_withDead q.2 c⟩
  · intro q hq
    rw [states_product? h]
    exact OrdSet.mem_product.2 ((mem_product?_accepting h).1 hq).1

/-- **After a word over the alphabet** the product is in the pair of the two runs. -/
theorem run_product? (ha : a.Valid) (hb : b.Valid) {w : List α} (hw : Over a.alphabet w) :
    p.run w = some (a.run w, b.run w) := by
  refine (tabulates_product? h).run_eq (f := fun w => (a.run w, b.run w)) (start_product? h) ?_ ?_ ?_
  · intro w
    rw [states_product? h, OrdSet.mem_product]
    exact ⟨ha.run_mem_withDead w, hb.run_mem_withDead w⟩
  · intro w c
    rw [run_concat, run_concat]
  · rwa [(alphabet_product? h).2]

/-- **The product accepts where `combine` says so.** -/
theorem accepts_product? (ha : a.Valid) (hb : b.Valid) {w : List α} (hw : Over a.alphabet w) :
    p.accepts w = combine (a.accepts w) (b.accepts w) := by
  have hq := And.intro (ha.run_mem_withDead w) (hb.run_mem_withDead w)
  rw [Bool.eq_iff_iff, accepts_iff_mem (run_product? h ha hb hw), mem_product?_accepting h,
    and_iff_right hq, accepts, accepts]

end Product

/-- **No word tells the automata apart exactly if their symmetric difference is empty**, words with
foreign symbols included: both reject them. -/
theorem isEmpty_symmetricDifference? (h : symmetricDifference? a b = some p) (ha : a.Valid)
    (hb : b.Valid) : p.isEmpty ↔ ∀ w, a.accepts w = b.accepts w := by
  obtain ⟨halphabet, hp⟩ := alphabet_product? h
  rw [isEmpty_iff, hp]
  refine ⟨?_, ?_⟩
  · intro hempty w
    by_cases hw : Over a.alphabet w
    · have hxor := (accepts_product? h ha hb hw).symm.trans (hempty w hw)
      simpa using hxor
    · rw [ha.accepts_eq_false hw, hb.accepts_eq_false (halphabet ▸ hw)]
  · intro hsame w hw
    rw [accepts_product? h ha hb hw, hsame w, Bool.xor_self]

end FiniteAutomata.Dfa
