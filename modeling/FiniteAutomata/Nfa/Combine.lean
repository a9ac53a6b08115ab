import FiniteAutomata.Nfa.Basic

/-!
# Nfa/Combine — union, concatenation and iteration of automata

The combinators put their operands side by side: the states of each operand are tagged with the
side they come from, so the operands never share a state, and silent edges join them.  Union and
concatenation need one alphabet for both operands and give nothing otherwise.
-/

namespace FiniteAutomata

variable {σ τ α : Type}

/-! ## Tagged states -/

/-- A fresh start beside the states of both operands. -/
inductive UnionState (σ τ : Type)
  | start
  | left (s : σ)
  | right (t : τ)

/-- The states of both operands. -/
inductive ConcatState (σ τ : Type)
  | left (s : σ)
  | right (t : τ)

/-- A fresh start beside the states of the operand. -/
inductive StarState (σ : Type)
  | start
  | inner (s : σ)

namespace UnionState

/-- The start, then the left states, then the right ones. -/
def compareTo [Ordered σ] [Ordered τ] : UnionState σ τ → UnionState σ τ → Ordering
  | start, start => .eq
  | start, _ => .lt
  | left _, start => .gt
  | left s, left s' => compare s s'
  | left _, right _ => .lt
  | right t, right t' => compare t t'
  | right _, _ => .gt

instance [Ordered σ] [Ordered τ] : Ordered (UnionState σ τ) :=
  Ordered.ofCompare compareTo
    (fun a b => by cases a <;> cases b <;> first | rfl | exact Ordered.swap_compare _ _)
    (fun a b h => by
      cases a <;> cases b <;> simp only [compareTo, reduceCtorEq, Ordered.compare_eq_iff] at h ⊢ <;>
        rw [h])
    (fun a b c hab hbc => by
      cases a <;> cases b <;> cases c <;> simp only [compareTo, reduceCtorEq] at hab hbc ⊢ <;>
        exact Ordered.lt_trans hab hbc)

end UnionState

namespace ConcatState

/-- The left states, then the right ones. -/
def compareTo [Ordered σ] [Ordered τ] : ConcatState σ τ → ConcatState σ τ → Ordering
  | left s, left s' => compare s s'
  | left _, right _ => .lt
  | right _, left _ => .gt
  | right t, right t' => compare t t'

instance [Ordered σ] [Ordered τ] : Ordered (ConcatState σ τ) :=
  Ordered.ofCompare compareTo
    (fun a b => by cases a <;> cases b <;> first | rfl | exact Ordered.swap_compare _ _)
    (fun a b h => by
      cases a <;> cases b <;> simp only [compareTo, reduceCtorEq, Ordered.compare_eq_iff] at h ⊢ <;>
        rw [h])
    (fun a b c hab hbc => by
      cases a <;> cases b <;> cases c <;> simp only [compareTo, reduceCtorEq] at hab hbc ⊢ <;>
        exact Ordered.lt_trans hab hbc)

end ConcatState

namespace StarState

/-- The start, then the inner states. -/
def compareTo [Ordered σ] : StarState σ → StarState σ → Ordering
  | start, start => .eq
  | start, inner _ => .lt
  | inner _, start => .gt
  | inner s, inner s' => compare s s'

instance [Ordered σ] : Ordered (StarState σ) :=
  Ordered.ofCompare compareTo
    (fun a b => by cases a <;> cases b <;> first | rfl | exact Ordered.swap_compare _ _)
    (fun a b h => by
      cases a <;> cases b <;> simp only [compareTo, reduceCtorEq, Ordered.compare_eq_iff] at h ⊢
      rw [h])
    (fun a b c hab hbc => by
      cases a <;> cases b <;> cases c <;> simp only [compareTo, reduceCtorEq] at hab hbc ⊢
      exact Ordered.lt_trans hab hbc)

end StarState

/-! ## Combinators -/

namespace Nfa

variable [Ordered σ] [Ordered τ] [Ordered α]

/-- Accepts what either operand accepts: the fresh start leads silently to both. -/
def union? (n : Nfa σ α) (m : Nfa τ α) : Option (Nfa (UnionState σ τ) α) :=
  if n.alphabet = m.alphabet then
    let left := n.mapStates (UnionState.left (τ := τ))
    let right := m.mapStates (UnionState.right (σ := σ))
    some {
      states := insert .start (left.states ∪ right.states)
      alphabet := n.alphabet
      start := .start
      transitions := insert (.silent .start left.start)
        (insert (.silent .start right.start) (left.transitions ∪ right.transitions))
      accepting := left.accepting ∪ right.accepting }
  else
    none

/-- Accepts a word of the first operand followed by one of the second: every accepting state of
the first leads silently to the start of the second. -/
def concat? (n : Nfa σ α) (m : Nfa τ α) : Option (Nfa (ConcatState σ τ) α) :=
  if n.alphabet = m.alphabet then
    let left := n.mapStates (ConcatState.left (τ := τ))
    let right := m.mapStates (ConcatState.right (σ := σ))
    some {
      states := left.states ∪ right.states
      alphabet := n.alphabet
      start := left.start
      transitions := left.accepting.map (.silent · right.start) ∪
        (left.transitions ∪ right.transitions)
      accepting := right.accepting }
  else
    none

/-- Accepts any number of words of the operand in a row: the fresh start is accepting and leads
silently to the old start, and so does every accepting state. -/
def star (n : Nfa σ α) : Nfa (StarState σ) α :=
  let inner := n.mapStates StarState.inner
  { states := insert .start inner.states
    alphabet := n.alphabet
    start := .start
    transitions := insert (.silent .start inner.start)
      (inner.accepting.map (.silent · inner.start) ∪ inner.transitions)
    accepting := insert .start inner.accepting }

end Nfa

end FiniteAutomata
