import FiniteAutomata.Proofs.Nfa.Bisimulation
import FiniteAutomata.Proofs.Nfa.Combination

/-!
# Proofs/Nfa/Congruence — the combinators do not depend on the names of the states

Relations between the states of operands are carried to the tagged states, and keep the order
there.  If they are bisimulations of the operands, they are one of the results: an operand may be
replaced by one that differs in names and in what cannot be reached.  So relabelling the operands
beforehand does not change what a combinator gives in the end (`relabel_union?`,
`relabel_concat?`, `relabel_star`), although the accepting states that are trimmed away have
silent edges of their own in the one case and none in the other.
-/

namespace FiniteAutomata

variable {σ τ σ' τ' α : Type} [Ordered σ] [Ordered τ] [Ordered σ'] [Ordered τ'] [Ordered α]

/-! ## Tagged states -/

/-- The starts are related, and states of the same side that are. -/
inductive UnionState.Rel (R : σ → σ' → Prop) (S : τ → τ' → Prop) :
    UnionState σ τ → UnionState σ' τ' → Prop
  | start : Rel R S .start .start
  | left {p : σ} {i : σ'} : R p i → Rel R S (.left p) (.left i)
  | right {p : τ} {i : τ'} : S p i → Rel R S (.right p) (.right i)

/-- States of the same side that are related. -/
inductive ConcatState.Rel (R : σ → σ' → Prop) (S : τ → τ' → Prop) :
    ConcatState σ τ → ConcatState σ' τ' → Prop
  | left {p : σ} {i : σ'} : R p i → Rel R S (.left p) (.left i)
  | right {p : τ} {i : τ'} : S p i → Rel R S (.right p) (.right i)

/-- The starts are related, and inner states that are. -/
inductive StarState.Rel (R : σ → σ' → Prop) : StarState σ → StarState σ' → Prop
  | start : Rel R .start .start
  | inner {p : σ} {i : σ'} : R p i → Rel R (.inner p) (.inner i)

variable {R : σ → σ' → Prop} {S : τ → τ' → Prop}

omit [Ordered σ] [Ordered τ] [Ordered σ'] [Ordered τ'] in
theorem UnionState.Rel.flip {p : UnionState σ τ} {i : UnionState σ' τ'}
    (h : UnionState.Rel R S p i) : UnionState.Rel (fun i p => R p i) (fun i p => S p i) i p := by
  cases h with
  | start => exact .start
  | left h => exact .left h
  | right h => exact .right h

omit [Ordered σ] [Ordered τ] [Ordered σ'] [Ordered τ'] in
theorem ConcatState.Rel.flip {p : ConcatState σ τ} {i : ConcatState σ' τ'}
    (h : ConcatState.Rel R S p i) : ConcatState.Rel (fun i p => R p i) (fun i p => S p i) i p := by
  cases h with
  | left h => exact .left h
  | right h => exact .right h

omit [Ordered σ] [Ordered σ'] in
theorem StarState.Rel.flip {p : StarState σ} {i : StarState σ'} (h : StarState.Rel R p i) :
    StarState.Rel (fun i p => R p i) i p := by
  cases h with
  | start => exact .start
  | inner h => exact .inner h

namespace KeepsOrder

theorem union (hR : KeepsOrder R) (hS : KeepsOrder S) : KeepsOrder (UnionState.Rel R S) := by
  intro p q i j hp hq
  cases hp with
  | start => cases hq <;> rfl
  | left hp => cases hq with
    | left hq => exact hR hp hq
    | start | right => rfl
  | right hp => cases hq with
    | right hq => exact hS hp hq
    | start | left => rfl

theorem concat (hR : KeepsOrder R) (hS : KeepsOrder S) : KeepsOrder (ConcatState.Rel R S) := by
  intro p q i j hp hq
  cases hp with
  | left hp => cases hq with
    | left hq => exact hR hp hq
    | right => rfl
  | right hp => cases hq with
    | left => rfl
    | right hq => exact hS hp hq

theorem star (hR : KeepsOrder R) : KeepsOrder (StarState.Rel R) := by
  intro p q i j hp hq
  cases hp with
  | start => cases hq <;> rfl
  | inner hp => cases hq with
    | start => rfl
    | inner hq => exact hR hp hq

end KeepsOrder

namespace Nfa

variable {n : Nfa σ α} {n' : Nfa σ' α} {m : Nfa τ α} {m' : Nfa τ' α}

namespace Bisimulation

/-! ## Union -/

section Union

variable {k : Nfa (UnionState σ τ) α} {k' : Nfa (UnionState σ' τ') α}

/-- Related states of two unions have related edges. -/
theorem exists_edge_union? (hn : Bisimulation R n n') (hm : Bisimulation S m m')
    (hk : n.union? m = some k) (hk' : n'.union? m' = some k') {p q : UnionState σ τ}
    {a : Option α} {i : UnionState σ' τ'} (ht : ⟨p, q, a⟩ ∈ k.transitions)
    (hpi : UnionState.Rel R S p i) :
    ∃ j, UnionState.Rel R S q j ∧ ⟨i, j, a⟩ ∈ k'.transitions := by
  cases hpi with
  | start =>
    obtain ⟨rfl, rfl | rfl⟩ := (union?_edge_start hk).1 ht
    · exact ⟨_, .left hn.start, (union?_edge_start hk').2 ⟨rfl, .inl rfl⟩⟩
    · exact ⟨_, .right hm.start, (union?_edge_start hk').2 ⟨rfl, .inr rfl⟩⟩
  | left hpi =>
    obtain ⟨q, rfl, hpq⟩ := (union?_edge_left hk).1 ht
    obtain ⟨j, hqj, hij⟩ := hn.forth hpq hpi
    exact ⟨_, .left hqj, (union?_edge_left hk').2 ⟨j, rfl, hij⟩⟩
  | right hpi =>
    obtain ⟨q, rfl, hpq⟩ := (union?_edge_right hk).1 ht
    obtain ⟨j, hqj, hij⟩ := hm.forth hpq hpi
    exact ⟨_, .right hqj, (union?_edge_right hk').2 ⟨j, rfl, hij⟩⟩

/-- **Bisimulations of the operands give one of the unions.** -/
theorem union (hn : Bisimulation R n n') (hm : Bisimulation S m m') (hk : n.union? m = some k)
    (hk' : n'.union? m' = some k') : Bisimulation (UnionState.Rel R S) k k' where
  alphabet_eq := by rw [(alphabet_union? hk).2, (alphabet_union? hk').2, hn.alphabet_eq]
  start := by
    rw [start_union? hk, start_union? hk']
    exact .start
  accepting_iff {p i} hpi := by
    rw [mem_union?_accepting hk, mem_union?_accepting hk']
    cases hpi with
    | start => simp
    | left hpi => simpa using hn.accepting_iff hpi
    | right hpi => simpa using hm.accepting_iff hpi
  forth := hn.exists_edge_union? hm hk hk'
  back ht hpi := by
    obtain ⟨q, hq, hpq⟩ := hn.flip.exists_edge_union? hm.flip hk' hk ht hpi.flip
    exact ⟨q, hq.flip, hpq⟩

end Union

/-! ## Concatenation -/

section Concat

variable {k : Nfa (ConcatState σ τ) α} {k' : Nfa (ConcatState σ' τ') α}

/-- Related states of two concatenations have related edges. -/
theorem exists_edge_concat? (hn : Bisimulation R n n') (hm : Bisimulation S m m')
    (hk : n.concat? m = some k) (hk' : n'.concat? m' = some k') {p q : ConcatState σ τ}
    {a : Option α} {i : ConcatState σ' τ'} (ht : ⟨p, q, a⟩ ∈ k.transitions)
    (hpi : ConcatState.Rel R S p i) :
    ∃ j, ConcatState.Rel R S q j ∧ ⟨i, j, a⟩ ∈ k'.transitions := by
  cases hpi with
  | left hpi =>
    rcases (concat?_edge_left hk).1 ht with ⟨q, rfl, hpq⟩ | ⟨hp, rfl, rfl⟩
    · obtain ⟨j, hqj, hij⟩ := hn.forth hpq hpi
      exact ⟨_, .left hqj, (concat?_edge_left hk').2 (.inl ⟨j, rfl, hij⟩)⟩
    · have hi := (hn.accepting_iff hpi).1 hp
      exact ⟨_, .right hm.start, (concat?_edge_left hk').2 (.inr ⟨hi, rfl, rfl⟩)⟩
  | right hpi =>
    obtain ⟨q, rfl, hpq⟩ := (concat?_edge_right hk).1 ht
    obtain ⟨j, hqj, hij⟩ := hm.forth hpq hpi
    exact ⟨_, .right hqj, (concat?_edge_right hk').2 ⟨j, rfl, hij⟩⟩

/-- **Bisimulations of the operands give one of the concatenations.** -/
theorem concat (hn : Bisimulation R n n') (hm : Bisimulation S m m') (hk : n.concat? m = some k)
    (hk' : n'.concat? m' = some k') : Bisimulation (ConcatState.Rel R S) k k' where
  alphabet_eq := by rw [(alphabet_concat? hk).2, (alphabet_concat? hk').2, hn.alphabet_eq]
  start := by
    rw [start_concat? hk, start_concat? hk']
    exact .left hn.start
  accepting_iff {p i} hpi := by
    rw [mem_concat?_accepting hk, mem_concat?_accepting hk']
    cases hpi with
    | left hpi => simp
    | right hpi => simpa using hm.accepting_iff hpi
  forth := hn.exists_edge_concat? hm hk hk'
  back ht hpi := by
    obtain ⟨q, hq, hpq⟩ := hn.flip.exists_edge_concat? hm.flip hk' hk ht hpi.flip
    exact ⟨q, hq.flip, hpq⟩

end Concat

/-! ## Iteration -/

theorem accepting_star_iff (hn : Bisimulation R n n') {p : StarState σ} {i : StarState σ'}
    (hpi : StarState.Rel R p i) : p ∈ n.star.accepting ↔ i ∈ n'.star.accepting := by
  rw [mem_star_accepting, mem_star_accepting]
  cases hpi with
  | start => simp
  | inner hpi => simpa using hn.accepting_iff hpi

/-- Related states of two iterations have related edges. -/
theorem exists_edge_star (hn : Bisimulation R n n') {p q : StarState σ} {a : Option α}
    {i : StarState σ'} (ht : ⟨p, q, a⟩ ∈ n.star.transitions) (hpi : StarState.Rel R p i) :
    ∃ j, StarState.Rel R q j ∧ ⟨i, j, a⟩ ∈ n'.star.transitions := by
  rcases mem_star_transitions.1 ht with ⟨hp, rfl, rfl⟩ | ⟨p, q, rfl, rfl, hpq⟩
  · have hi := (hn.accepting_star_iff hpi).1 hp
    exact ⟨_, .inner hn.start, mem_star_transitions.2 (.inl ⟨hi, rfl, rfl⟩)⟩
  · cases hpi with
    | @inner _ i hpi =>
      obtain ⟨j, hqj, hij⟩ := hn.forth hpq hpi
      exact ⟨_, .inner hqj, mem_star_transitions.2 (.inr ⟨i, j, rfl, rfl, hij⟩)⟩

/-- **A bisimulation of the operands gives one of the iterations.** -/
theorem star (hn : Bisimulation R n n') : Bisimulation (StarState.Rel R) n.star n'.star where
  alphabet_eq := hn.alphabet_eq
  start := .start
  accepting_iff := hn.accepting_star_iff
  forth := hn.exists_edge_star
  back ht hpi := by
    obtain ⟨q, hq, hpq⟩ := hn.flip.exists_edge_star ht hpi.flip
    exact ⟨q, hq.flip, hpq⟩

end Bisimulation

/-! ## Relabelling the operands -/

/-- **Relabelled operands have the same union**, up to names. -/
theorem relabel_union? (n : Nfa σ α) (m : Nfa τ α) :
    (n.relabel.union? m.relabel).map relabel = (n.union? m).map relabel := by
  by_cases h : n.alphabet = m.alphabet
  · obtain ⟨k, hk⟩ := exists_union? h
    obtain ⟨k', hk'⟩ : ∃ k', n.relabel.union? m.relabel = some k' :=
      exists_union? (by rwa [relabel_alphabet, relabel_alphabet])
    have hkk' := n.bisimulation_relabel.union m.bisimulation_relabel hk hk'
    rw [hk, hk', Option.map_some, Option.map_some,
      hkk'.relabel_eq ((KeepsOrder.number _).union (KeepsOrder.number _))]
  · rw [union?, union?, if_neg h, if_neg (by rwa [relabel_alphabet, relabel_alphabet])]
    rfl

/-- **Relabelled operands have the same concatenation**, up to names. -/
theorem relabel_concat? (n : Nfa σ α) (m : Nfa τ α) :
    (n.relabel.concat? m.relabel).map relabel = (n.concat? m).map relabel := by
  by_cases h : n.alphabet = m.alphabet
  · obtain ⟨k, hk⟩ := exists_concat? h
    obtain ⟨k', hk'⟩ : ∃ k', n.relabel.concat? m.relabel = some k' :=
      exists_concat? (by rwa [relabel_alphabet, relabel_alphabet])
    have hkk' := n.bisimulation_relabel.concat m.bisimulation_relabel hk hk'
    rw [hk, hk', Option.map_some, Option.map_some,
      hkk'.relabel_eq ((KeepsOrder.number _).concat (KeepsOrder.number _))]
  · rw [concat?, concat?, if_neg h, if_neg (by rwa [relabel_alphabet, relabel_alphabet])]
    rfl

/-- **A relabelled operand has the same iteration**, up to names. -/
theorem relabel_star (n : Nfa σ α) : n.relabel.star.relabel = n.star.relabel :=
  (n.bisimulation_relabel.star.relabel_eq (KeepsOrder.number _).star).symm

end Nfa

end FiniteAutomata
