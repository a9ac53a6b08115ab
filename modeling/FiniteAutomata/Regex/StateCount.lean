import FiniteAutomata.Regex.Marked

/-!
# Regex/StateCount — how large the automaton of an expression is

The number of states of the nondeterministic automaton of an expression can be told from the
expression.  All it takes besides counting is whether some word matches a left operand: if none
does, its automaton has no accepting state that can be reached, and what follows is never entered.
-/

namespace FiniteAutomata.Regex

variable {α : Type}

/-- Whether the expression denotes some word. -/
def isInhabited : Regex α → Bool
  | empty => false
  | epsilon | symbol _ | star _ => true
  | concat l r => l.isInhabited && r.isInhabited
  | union l r => l.isInhabited || r.isInhabited

theorem isInhabited_iff {r : Regex α} : r.isInhabited = true ↔ ∃ w, Denotes r w := by
  induction r with
  | empty => simp [isInhabited, denotes_empty]
  | epsilon => exact iff_of_true rfl ⟨[], .epsilon⟩
  | symbol c => exact iff_of_true rfl ⟨[c], .symbol c⟩
  | concat l r hl hr =>
    rw [isInhabited, Bool.and_eq_true, hl, hr]
    constructor
    · rintro ⟨⟨u, hu⟩, v, hv⟩
      exact ⟨u ++ v, .concat hu hv⟩
    · rintro ⟨w, hw⟩
      obtain ⟨u, v, -, hu, hv⟩ := denotes_concat.1 hw
      exact ⟨⟨u, hu⟩, v, hv⟩
  | union l r hl hr =>
    rw [isInhabited, Bool.or_eq_true, hl, hr, ← exists_or]
    simp only [denotes_union]
  | star r _ => exact iff_of_true rfl ⟨[], .done⟩

variable [DecidableEq α]

/-- Whether some word matches is seen from the expression. -/
instance (r : Regex α) : Decidable (∃ w, r.accepts w = true) :=
  decidable_of_iff (r.isInhabited = true) (by simp only [isInhabited_iff, accepts_iff])

/-- The number of states of the automaton of an expression.  What follows an expression that no word
matches is out of reach. -/
def stateCount : Regex α → Nat
  | empty | epsilon => 1
  | symbol _ => 2
  | concat l r => if ∃ w, l.accepts w then l.stateCount + r.stateCount else l.stateCount
  | union l r => 1 + l.stateCount + r.stateCount
  | star r => 1 + r.stateCount

end FiniteAutomata.Regex
