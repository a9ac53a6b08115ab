import FiniteAutomata.Proofs.Nfa.Combination

/-!
# Proofs/Nfa/Languages — the combinators as operations on languages

A path of a union leaves the fresh start for one operand and stays there.  A path of a
concatenation passes once from the left operand to the right one, at an accepting state and
silently (`concat?_path_left`), so it cuts its word in two.  A path of an iteration starts the
operand again at accepting states only, and the fresh start is never entered again
(`star_path_inner`), so it cuts its word into words of the operand.  This holds for operands of
any kind: valid or not, entered again at the start, left again at an accepting state, with circles
of silent edges, and with the same names for the states of both.
-/

namespace FiniteAutomata.Nfa

variable {σ τ α : Type} [Ordered σ] [Ordered τ] [Ordered α]

/-! ## Concatenation -/

/-- Exactly automata over one alphabet are put together. -/
theorem concat?_eq_none {n : Nfa σ α} {m : Nfa τ α} :
    n.concat? m = none ↔ n.alphabet ≠ m.alphabet := by
  rw [← Option.not_isSome_iff_eq_none, isSome_concat?_iff]

/-- **A concatenation accepts the words put together from both sides.**  Automata of any kind have
one exactly if they have one alphabet, and it accepts a word exactly if some cut of it leaves a
word of the left operand in front of a word of the right one. -/
theorem concatenation_accepts (n : Nfa σ α) (m : Nfa τ α) :
    (n.concat? m = none ↔ n.alphabet ≠ m.alphabet) ∧
      ∀ k, n.concat? m = some k →
        ∀ w, k.accepts w ↔ ∃ u v, w = u ++ v ∧ n.accepts u ∧ m.accepts v := by
  refine ⟨concat?_eq_none, ?_⟩
  intro k hk w
  simp only [accepts_iff_recognizes]
  exact recognizes_concat? hk

/-- Two states that are not listed, a circle of silent edges through the start, which is entered
again, and an accepting state that is left again, silently and by a symbol. -/
def tangled : Nfa Nat Char where
  states := .ofList [0]
  alphabet := .ofList ['a', 'b']
  start := 0
  transitions := .ofList [.silent 0 1, .silent 1 0, .reading 1 2 'a', .silent 2 0, .reading 2 1 'b']
  accepting := {2}

/-- The automaton put together with itself. -/
theorem concatenation_of_tangled : ¬tangled.Valid ∧
    ∃ k, tangled.concat? tangled = some k ∧ k.accepts ['a', 'a', 'b', 'a'] ∧ ¬k.accepts ['a'] := by
  have hinvalid : ¬tangled.Valid := by decide
  obtain ⟨k, hk⟩ : ∃ k, tangled.concat? tangled = some k := exists_concat? rfl
  have haccepts := (concatenation_accepts tangled tangled).2 k hk
  have hshort : tangled.accepts ['a'] := by decide +kernel
  have hlong : tangled.accepts ['a', 'b', 'a'] := by decide +kernel
  have hnil : ¬tangled.accepts [] := by decide +kernel
  refine ⟨hinvalid, k, hk, (haccepts _).2 ⟨['a'], ['a', 'b', 'a'], rfl, hshort, hlong⟩, ?_⟩
  rw [haccepts]
  rintro ⟨u, v, huv, hu, hv⟩
  -- one of the two pieces of a single symbol is empty
  rcases List.singleton_eq_append_iff.1 huv with ⟨rfl, -⟩ | ⟨-, rfl⟩
  · exact hnil hu
  · exact hnil hv

/-! ## Union -/

/-- Exactly automata over one alphabet have a union. -/
theorem union?_eq_none {n : Nfa σ α} {m : Nfa τ α} :
    n.union? m = none ↔ n.alphabet ≠ m.alphabet := by
  rw [← Option.not_isSome_iff_eq_none, isSome_union?_iff]

/-- **A union accepts the words of both sides** and no others.  Automata of any kind have one
exactly if they have one alphabet; the states of the two sides are kept apart even where they have
the same names. -/
theorem union_accepts (n : Nfa σ α) (m : Nfa τ α) :
    (n.union? m = none ↔ n.alphabet ≠ m.alphabet) ∧
      ∀ k, n.union? m = some k → ∀ w, k.accepts w ↔ n.accepts w ∨ m.accepts w := by
  refine ⟨union?_eq_none, ?_⟩
  intro k hk w
  simp only [accepts_iff_recognizes]
  exact recognizes_union? hk

/-- It reads `b` once, on states with the names of `tangled`; there `a` leads on from where it
ends. -/
def bypass : Nfa Nat Char where
  states := .ofList [0]
  alphabet := .ofList ['a', 'b']
  start := 0
  transitions := .ofList [.reading 0 1 'b']
  accepting := {1}

/-- If states of one name were one state, the silent edge from `0` to `1` would lead to an accepting
state and `ba` would be accepted. -/
theorem union_of_tangled_and_bypass : ∃ k, tangled.union? bypass = some k ∧
    k.accepts ['a', 'b', 'a'] ∧ k.accepts ['b'] ∧ ¬k.accepts [] ∧ ¬k.accepts ['b', 'a'] := by
  obtain ⟨k, hk⟩ : ∃ k, tangled.union? bypass = some k := exists_union? rfl
  have haccepts := (union_accepts tangled bypass).2 k hk
  refine ⟨k, hk, (haccepts _).2 (.inl ?_), (haccepts _).2 (.inr ?_), ?_, ?_⟩
  · decide +kernel
  · decide +kernel
  · rw [haccepts]
    decide +kernel
  · rw [haccepts]
    decide +kernel

/-! ## Iteration -/

/-- **An iteration accepts the words put together from any number of words**, none included, of its
operand, which may be of any kind. -/
theorem iteration_accepts (n : Nfa σ α) (w : List α) :
    n.star.accepts w ↔ ∃ ws : List (List α), w = ws.flatten ∧ ∀ u ∈ ws, n.accepts u := by
  simp only [accepts_iff_recognizes]
  exact recognizes_star

/-- The start is entered again after `a`, and still only whole rounds are accepted. -/
example : tangled.star.accepts [] ∧ tangled.star.accepts ['a', 'a', 'b', 'a'] ∧
    ¬tangled.star.accepts ['a', 'b'] := by decide +kernel

end FiniteAutomata.Nfa
