import FiniteAutomata.Proofs.Dfa.SideBySide

/-!
# Proofs/Dfa/Equality — comparing two automata decides whether they accept the same words

There is an answer exactly for automata over one alphabet (`equal?_eq_none`).  The answer for valid
automata is about all words, but one that is negative has a reason over the alphabet
(`exists_over_of_accepts_ne`): missing starts, entries left out and states that cannot be reached do
not matter.  Automata over two alphabets are not compared, even if they accept the same words
(`equal?_of_two_alphabets`).
-/

namespace FiniteAutomata.Dfa

variable {σ τ α : Type} [Ordered σ] [Ordered τ] [Ordered α] {a : Dfa σ α} {b : Dfa τ α}

/-- Exactly automata over one alphabet are compared. -/
theorem equal?_eq_none : equal? a b = none ↔ a.alphabet ≠ b.alphabet := by
  rw [equal?, Option.map_eq_none_iff]
  exact product?_eq_none

/-- **The answer for valid automata** over one alphabet is whether they accept the same words. -/
theorem equal?_eq_some (ha : a.Valid) (hb : b.Valid) {same : Bool} : equal? a b = some same ↔
    a.alphabet = b.alphabet ∧ (same = true ↔ ∀ w, a.accepts w = b.accepts w) := by
  by_cases halphabet : a.alphabet = b.alphabet
  · obtain ⟨p, hp⟩ : ∃ p, symmetricDifference? a b = some p := exists_product? xor halphabet
    have hequal : equal? a b = some p.isEmpty := congrArg (Option.map isEmpty) hp
    rw [hequal, Option.some.injEq, and_iff_right halphabet,
      ← isEmpty_symmetricDifference? hp ha hb, eq_comm, Bool.eq_iff_iff]
  · refine iff_of_false ?_ fun h => halphabet h.1
    rw [equal?_eq_none.2 halphabet]
    exact nofun

/-- Valid automata over one alphabet that accept different words do so on a word over the alphabet:
both reject the others. -/
theorem exists_over_of_accepts_ne (ha : a.Valid) (hb : b.Valid) (h : a.alphabet = b.alphabet) :
    (¬∀ w, a.accepts w = b.accepts w) ↔
      ∃ w, Over a.alphabet w ∧ a.accepts w ≠ b.accepts w := by
  rw [not_forall]
  refine exists_congr fun w => ⟨fun hne => ⟨?_, hne⟩, fun hw => hw.2⟩
  by_contra hw
  exact hne ((ha.accepts_eq_false hw).trans (hb.accepts_eq_false (h ▸ hw)).symm)

/-- **Comparing decides equality of languages.**  Valid automata are compared exactly if they have
one alphabet; the answer is positive exactly if they accept the same words of any symbols, and
negative exactly if one of them alone accepts some word over the alphabet. -/
theorem equal?_decides (ha : a.Valid) (hb : b.Valid) :
    (equal? a b = none ↔ a.alphabet ≠ b.alphabet) ∧
    (equal? a b = some true ↔ a.alphabet = b.alphabet ∧ ∀ w, a.accepts w = b.accepts w) ∧
    (equal? a b = some false ↔ a.alphabet = b.alphabet ∧
      ∃ w, (∀ c ∈ w, c ∈ a.alphabet) ∧ a.accepts w ≠ b.accepts w) := by
  refine ⟨equal?_eq_none, ?_, ?_⟩
  · rw [equal?_eq_some ha hb, eq_self_iff_true, true_iff]
  · rw [equal?_eq_some ha hb, Bool.false_eq_true, false_iff]
    exact and_congr_right fun halphabet => exists_over_of_accepts_ne ha hb halphabet

/-- Its only accepting state cannot be reached, and its start has no row. -/
def stranded : Dfa Nat Char where
  states := .ofList [0, 1]
  alphabet := .ofList ['a']
  start := some 0
  rows := .ofList [(1, .ofList [('a', 1)])]
  accepting := {1}

/-- What cannot be reached makes no difference to an automaton without a start. -/
theorem stranded_equal?_empty : stranded.Valid ∧ (empty (.ofList ['a'])).Valid ∧
    equal? stranded (empty (.ofList ['a'])) = some true ∧
    ∀ w, stranded.accepts w = (empty (.ofList ['a'])).accepts w := by
  have hstranded : stranded.Valid := by decide
  have hempty : (empty (.ofList ['a'])).Valid := valid_empty _
  have hequal : equal? stranded (empty (.ofList ['a'])) = some true := by decide +kernel
  exact ⟨hstranded, hempty, hequal, ((equal?_decides hstranded hempty).2.1.1 hequal).2⟩

/-- The automaton that starts in the dead state accepts nothing. -/
theorem accepts_empty (alphabet : OrdSet α) (w : List α) : (empty alphabet).accepts w = false := by
  rw [accepts, run_eq_none_of_start rfl w]
  rfl

/-- **Two alphabets stand in the way of an answer**, also for automata that accept the same
words. -/
theorem equal?_of_two_alphabets :
    (empty (.ofList ['a'])).Valid ∧ (empty (.ofList ['b'])).Valid ∧
      ¬(equal? (empty (.ofList ['a'])) (empty (.ofList ['b'])) = some true ↔
        ∀ w, (empty (.ofList ['a'])).accepts w = (empty (.ofList ['b'])).accepts w) := by
  have hnone : equal? (empty (.ofList ['a'])) (empty (.ofList ['b'])) = none := by decide +kernel
  have hsame (w : List Char) :
      (empty (.ofList ['a'])).accepts w = (empty (.ofList ['b'])).accepts w :=
    (accepts_empty _ w).trans (accepts_empty _ w).symm
  refine ⟨valid_empty _, valid_empty _, fun h => ?_⟩
  exact nomatch hnone.symm.trans (h.2 hsame)

end FiniteAutomata.Dfa
