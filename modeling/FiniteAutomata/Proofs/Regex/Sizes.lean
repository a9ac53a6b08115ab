import FiniteAutomata.Proofs.Nfa.Reachability
import FiniteAutomata.Proofs.Regex.Construction
import FiniteAutomata.Regex.StateCount

/-!
# Proofs/Regex/Sizes — the number of states can be told from the expression

Every automaton on the way is numbered from its start on, and all of its states can be reached
(`Nfa.Numbered`).  So a combinator adds the states that are reached in its operands, and the
start stays the first of them.  Whether the right operand of a concatenation counts is a matter of
words: the left one recognizes some exactly if some word matches it.
-/

namespace FiniteAutomata

variable {σ τ α : Type} [Ordered σ] [Ordered τ] [Ordered α]

namespace Nfa

/-- The states are the numbers up to `k`, all of them are reached, and `1` is the start. -/
structure Numbered (n : Nfa Nat α) (k : Nat) : Prop where
  start_eq : n.start = 1
  states_eq : n.states = .upTo k
  reachable_eq : n.reachable = .upTo k

/-- An automaton whose start comes first among the states that are reached is relabelled into a
numbered one. -/
theorem numbered_relabel {n : Nfa σ α} {k : Nat} (hsize : n.reachable.size = k)
    (hfirst : ∀ q ∈ n.reachable, compare q n.start ≠ .lt) : n.relabel.Numbered k where
  start_eq := by
    have hone := OrdSet.number?_first n.start_mem_reachable hfirst
    rw [number?_start] at hone
    exact Option.some.inj hone
  states_eq := by rw [relabel_states, hsize]
  reachable_eq := by rw [reachable_relabel, relabel_states, hsize]

namespace Numbered

variable {a b : Nfa Nat α} {i j : Nat}

theorem size_reachable (ha : a.Numbered i) : a.reachable.size = i := by
  rw [ha.reachable_eq, OrdSet.size_upTo]

theorem union {k : Nfa (UnionState Nat Nat) α} (ha : a.Numbered i) (hb : b.Numbered j)
    (hk : a.union? b = some k) : k.relabel.Numbered (1 + i + j) := by
  refine numbered_relabel ?_ fun q _ => ?_
  · rw [size_reachable_union? hk, ha.size_reachable, hb.size_reachable]
  · rw [start_union? hk]
    cases q <;> nofun

theorem star (ha : a.Numbered i) : a.star.relabel.Numbered (1 + i) := by
  refine numbered_relabel ?_ fun q _ => ?_
  · rw [size_reachable_star, ha.size_reachable]
  · cases q <;> nofun

/-- In a concatenation the start of the left operand stays first. -/
theorem start_concat?_first {k : Nfa (ConcatState Nat Nat) α} (ha : a.Numbered i)
    (hk : a.concat? b = some k) : ∀ q ∈ k.reachable, compare q k.start ≠ .lt := by
  intro q hq
  rw [start_concat? hk, ha.start_eq]
  rcases (reaches_concat? hk).1 (mem_reachable_iff_reaches.1 hq) with ⟨p, hp, rfl⟩ | ⟨-, p, -, rfl⟩
  · rw [← mem_reachable_iff_reaches, ha.reachable_eq, OrdSet.mem_upTo] at hp
    show compare p 1 ≠ .lt
    exact fun hlt => Nat.not_lt.2 hp.1 (Nat.compare_eq_lt.1 hlt)
  · nofun

theorem concat {k : Nfa (ConcatState Nat Nat) α} (ha : a.Numbered i) (hb : b.Numbered j)
    (hk : a.concat? b = some k) (h : ∃ w, a.Recognizes w) : k.relabel.Numbered (i + j) := by
  refine numbered_relabel ?_ (ha.start_concat?_first hk)
  rw [size_reachable_concat? hk h, ha.size_reachable, hb.size_reachable]

theorem concat_of_not {k : Nfa (ConcatState Nat Nat) α} (ha : a.Numbered i)
    (hk : a.concat? b = some k) (h : ¬∃ w, a.Recognizes w) : k.relabel.Numbered i := by
  refine numbered_relabel ?_ (ha.start_concat?_first hk)
  rw [size_reachable_concat?_of_not hk h, ha.size_reachable]

end Numbered

/-! ## Atoms -/

theorem numbered_unit (n : Nfa Unit α) : n.relabel.Numbered 1 :=
  numbered_relabel
    (OrdSet.size_eq_length (List.nodup_singleton ()) fun _ =>
      iff_of_true n.start_mem_reachable (List.mem_singleton.2 rfl))
    nofun

theorem numbered_symbol {alphabet : OrdSet α} {c : α} {n : Nfa Bool α}
    (hn : symbol? alphabet c = some n) : n.relabel.Numbered 2 := by
  obtain ⟨-, hn⟩ := Option.ite_none_right_eq_some.1 hn
  obtain rfl := Option.some.inj hn
  refine numbered_relabel (OrdSet.size_eq_length (by decide : [false, true].Nodup) fun q => ?_)
    fun q _ => ?_
  · refine iff_of_true (mem_reachable_iff_reaches.2 ?_) (by cases q <;> decide)
    cases q with
    | false => exact reaches_start _
    | true => exact (reaches_start _).edge (OrdSet.mem_singleton.2 rfl)
  · cases q <;> nofun

end Nfa

/-! ## Expressions -/

namespace Regex

variable [DecidableEq α]

/-- **The recursion numbers as many states as the expression tells.** -/
theorem numbered_of_toNfa? {alphabet : OrdSet α} {r : Regex α} {n : Nfa Nat α}
    (hn : r.toNfa? alphabet = some n) : n.Numbered r.stateCount := by
  induction r generalizing n with
  | empty | epsilon =>
    obtain rfl := Option.some.inj hn
    exact Nfa.numbered_unit _
  | symbol c =>
    obtain ⟨k, hk, rfl⟩ := Option.map_eq_some_iff.1 hn
    exact Nfa.numbered_symbol hk
  | concat l r ihl ihr =>
    obtain ⟨a, b, k, ha, hb, hk, rfl⟩ := toNfa?_concat_eq_some.1 hn
    have hwords : (∃ w, a.Recognizes w) ↔ ∃ w, l.accepts w := by
      simp only [(realizes_of_toNfa? ha).recognizes_iff, accepts_iff]
    rw [stateCount]
    split
    · next h => exact (ihl ha).concat (ihr hb) hk (hwords.2 h)
    · next h => exact (ihl ha).concat_of_not hk (hwords.not.2 h)
  | union l r ihl ihr =>
    obtain ⟨a, b, k, ha, hb, hk, rfl⟩ := toNfa?_union_eq_some.1 hn
    exact (ihl ha).union (ihr hb) hk
  | star r ih =>
    obtain ⟨a, ha, rfl⟩ := toNfa?_star_eq_some.1 hn
    exact (ih ha).star

/-- **The size of the automaton can be told from the expression.**  If all symbols are in the
alphabet the construction gives an automaton that starts in `1`, and its states are the numbers up
to the count that the expression has by itself. -/
theorem toNfa_states_counted {alphabet : OrdSet α} {r : Regex α}
    (h : ∀ c ∈ r.symbols, c ∈ alphabet) : ∃ n, (r.toNfa alphabet).outcome = .ok n ∧
      n.start = 1 ∧ ∀ i, i ∈ n.states ↔ 1 ≤ i ∧ i ≤ r.stateCount := by
  obtain ⟨n, hn, -⟩ := exists_toNfa? h
  have hnumbered := numbered_of_toNfa? hn
  refine ⟨n, outcome_toNfa_of_toNfa? hn, hnumbered.start_eq, fun i => ?_⟩
  rw [hnumbered.states_eq, OrdSet.mem_upTo]

/-- Twice nothing gets past the `∅` of `∅a`, once inside an iteration and once at the end. -/
def blocked : Regex Char :=
  concat (star (concat empty (symbol 'a')))
    (concat (union (symbol 'b') empty) (concat empty (symbol 'a')))

/-- Of the eleven states of the parts, seven are left. -/
theorem blocked_states_counted : (∀ c ∈ blocked.symbols, c ∈ OrdSet.ofList ['a', 'b']) ∧
    ∃ n, (blocked.toNfa (.ofList ['a', 'b'])).outcome = .ok n ∧ n.start = 1 ∧
      ∀ i, i ∈ n.states ↔ 1 ≤ i ∧ i ≤ 7 := by
  have hsymbols : ∀ c ∈ blocked.symbols, c ∈ OrdSet.ofList ['a', 'b'] := by
    simp [blocked, symbols]
  have hcount : blocked.stateCount = 7 := by decide
  exact ⟨hsymbols, hcount ▸ toNfa_states_counted hsymbols⟩

end Regex

end FiniteAutomata
