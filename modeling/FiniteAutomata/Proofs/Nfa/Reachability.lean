import FiniteAutomata.Proofs.Nfa.Combination
import FiniteAutomata.Proofs.Nfa.Numbering
import FiniteAutomata.Proofs.Order.Counting

/-!
# Proofs/Nfa/Reachability — what is reached in a combined automaton

In a union and in an iteration the fresh start is reached, and in each operand what was reached in
it alone.  In a concatenation the right operand is entered only from an accepting state of the left
one, so it is reached as far as before, or not at all if the left one recognizes no word.  This is
counted without looking at the states that are listed, so it holds for operands of any kind.
-/

namespace FiniteAutomata.Nfa

variable {σ τ α : Type} [Ordered σ] [Ordered τ] [Ordered α] {n : Nfa σ α} {m : Nfa τ α}

/-- An operand is reached as far as before once its start is. -/
theorem Reaches.embed {k : Nfa τ α} {p : σ} (hp : n.Reaches p) (f : σ → τ)
    (hstart : k.Reaches (f n.start))
    (hedge : ∀ {p q a}, ⟨p, q, a⟩ ∈ n.transitions → ⟨f p, f q, a⟩ ∈ k.transitions) :
    k.Reaches (f p) :=
  hp.induction hstart fun ht hp => hp.edge (hedge ht)

/-- Some word is recognized exactly if some accepting state is reached. -/
theorem exists_recognizes_iff : (∃ w, n.Recognizes w) ↔ ∃ q ∈ n.accepting, n.Reaches q := by
  constructor
  · rintro ⟨w, q, hq, hpath⟩
    exact ⟨q, hq, w, hpath⟩
  · rintro ⟨q, hq, w, hpath⟩
    exact ⟨w, q, hq, hpath⟩

/-! ## Union -/

section Union

variable {k : Nfa (UnionState σ τ) α} (hk : n.union? m = some k)

include hk

theorem reaches_union? {q : UnionState σ τ} : k.Reaches q ↔
    q = .start ∨ (∃ p, n.Reaches p ∧ .left p = q) ∨ ∃ p, m.Reaches p ∧ .right p = q := by
  constructor
  · intro hq
    refine hq.induction (.inl (start_union? hk)) fun ht hp => ?_
    rcases (mem_union?_transitions hk).1 ht with
      ⟨rfl, rfl, rfl | rfl⟩ | ⟨p, q, rfl, rfl, hpq⟩ | ⟨p, q, rfl, rfl, hpq⟩
    · exact .inr (.inl ⟨_, n.reaches_start, rfl⟩)
    · exact .inr (.inr ⟨_, m.reaches_start, rfl⟩)
    · have hp : n.Reaches p := by simpa using hp
      exact .inr (.inl ⟨q, hp.edge hpq, rfl⟩)
    · have hp : m.Reaches p := by simpa using hp
      exact .inr (.inr ⟨q, hp.edge hpq, rfl⟩)
  · have hstart : k.Reaches .start := start_union? hk ▸ k.reaches_start
    rintro (rfl | ⟨p, hp, rfl⟩ | ⟨p, hp, rfl⟩)
    · exact hstart
    · have hleft := hstart.edge ((union?_edge_start hk).2 ⟨rfl, .inl rfl⟩)
      exact hp.embed _ hleft fun ht => (union?_edge_left hk).2 ⟨_, rfl, ht⟩
    · have hright := hstart.edge ((union?_edge_start hk).2 ⟨rfl, .inr rfl⟩)
      exact hp.embed _ hright fun ht => (union?_edge_right hk).2 ⟨_, rfl, ht⟩

/-- **In a union one more state is reached** than in the operands. -/
theorem size_reachable_union? :
    k.reachable.size = 1 + n.reachable.size + m.reachable.size := by
  have hreachable : k.reachable =
      insert .start (n.reachable.map UnionState.left ∪ m.reachable.map UnionState.right) := by
    ext q
    simp only [mem_reachable_iff_reaches, reaches_union? hk, OrdSet.mem_insert, OrdSet.mem_union,
      OrdSet.mem_map]
  rw [hreachable, OrdSet.size_insert (by simp), OrdSet.size_union (by simp),
    OrdSet.size_map fun _ _ => UnionState.left.inj, OrdSet.size_map fun _ _ => UnionState.right.inj]
  omega

end Union

/-! ## Concatenation -/

section Concat

variable {k : Nfa (ConcatState σ τ) α} (hk : n.concat? m = some k)

include hk

theorem reaches_concat? {q : ConcatState σ τ} : k.Reaches q ↔
    (∃ p, n.Reaches p ∧ .left p = q) ∨
      (∃ w, n.Recognizes w) ∧ ∃ p, m.Reaches p ∧ .right p = q := by
  rw [exists_recognizes_iff]
  constructor
  · intro hq
    refine hq.induction (.inl ⟨_, n.reaches_start, (start_concat? hk).symm⟩) fun ht hp => ?_
    rcases (mem_concat?_transitions hk).1 ht with
      ⟨p, hacc, rfl, rfl, rfl⟩ | ⟨p, q, rfl, rfl, hpq⟩ | ⟨p, q, rfl, rfl, hpq⟩
    · have hp : n.Reaches p := by simpa using hp
      exact .inr ⟨⟨p, hacc, hp⟩, _, m.reaches_start, rfl⟩
    · have hp : n.Reaches p := by simpa using hp
      exact .inl ⟨q, hp.edge hpq, rfl⟩
    · obtain ⟨hacc, hp⟩ : (∃ q ∈ n.accepting, n.Reaches q) ∧ m.Reaches p := by simpa using hp
      exact .inr ⟨hacc, q, hp.edge hpq, rfl⟩
  · have hleft : ∀ {p}, n.Reaches p → k.Reaches (.left p) := fun hp =>
      hp.embed _ (start_concat? hk ▸ k.reaches_start) fun ht =>
        (concat?_edge_left hk).2 (.inl ⟨_, rfl, ht⟩)
    rintro (⟨p, hp, rfl⟩ | ⟨⟨r, hacc, hr⟩, p, hp, rfl⟩)
    · exact hleft hp
    · have hright := (hleft hr).edge ((concat?_edge_left hk).2 (.inr ⟨hacc, rfl, rfl⟩))
      exact hp.embed _ hright fun ht => (concat?_edge_right hk).2 ⟨_, rfl, ht⟩

/-- **The right operand is entered after a word of the left one.** -/
theorem size_reachable_concat? (h : ∃ w, n.Recognizes w) :
    k.reachable.size = n.reachable.size + m.reachable.size := by
  have hreachable : k.reachable =
      n.reachable.map ConcatState.left ∪ m.reachable.map ConcatState.right := by
    ext q
    simp only [mem_reachable_iff_reaches, reaches_concat? hk, and_iff_right h, OrdSet.mem_union,
      OrdSet.mem_map]
  rw [hreachable, OrdSet.size_union (by simp), OrdSet.size_map fun _ _ => ConcatState.left.inj,
    OrdSet.size_map fun _ _ => ConcatState.right.inj]

/-- **Without a word of the left operand the right one is never entered.** -/
theorem size_reachable_concat?_of_not (h : ¬∃ w, n.Recognizes w) :
    k.reachable.size = n.reachable.size := by
  have hreachable : k.reachable = n.reachable.map ConcatState.left := by
    ext q
    simp only [mem_reachable_iff_reaches, reaches_concat? hk, h, false_and, or_false,
      OrdSet.mem_map]
  rw [hreachable, OrdSet.size_map fun _ _ => ConcatState.left.inj]

end Concat

/-! ## Iteration -/

theorem reaches_star {q : StarState σ} :
    n.star.Reaches q ↔ q = .start ∨ ∃ p, n.Reaches p ∧ .inner p = q := by
  constructor
  · intro hq
    refine hq.induction (.inl rfl) fun ht hp => ?_
    rcases mem_star_transitions.1 ht with ⟨-, rfl, rfl⟩ | ⟨p, q, rfl, rfl, hpq⟩
    · exact .inr ⟨_, n.reaches_start, rfl⟩
    · have hp : n.Reaches p := by simpa using hp
      exact .inr ⟨q, hp.edge hpq, rfl⟩
  · rintro (rfl | ⟨p, hp, rfl⟩)
    · exact n.star.reaches_start
    · have hinner := n.star.reaches_start.edge
        (mem_star_transitions.2 (.inl ⟨mem_star_accepting.2 (.inl rfl), rfl, rfl⟩))
      exact hp.embed _ hinner fun ht => mem_star_transitions.2 (.inr ⟨_, _, rfl, rfl, ht⟩)

/-- **In an iteration one more state is reached** than in the operand. -/
theorem size_reachable_star (n : Nfa σ α) : n.star.reachable.size = 1 + n.reachable.size := by
  have hreachable : n.star.reachable = insert .start (n.reachable.map StarState.inner) := by
    ext q
    simp only [mem_reachable_iff_reaches, reaches_star, OrdSet.mem_insert, OrdSet.mem_map]
  rw [hreachable, OrdSet.size_insert (by simp), OrdSet.size_map fun _ _ => StarState.inner.inj,
    Nat.add_comm]

end FiniteAutomata.Nfa
