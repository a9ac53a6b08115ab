import FiniteAutomata.OrdSet.Basic

/-!
# Nfa/Basic — nondeterministic automata with silent edges

An `Nfa σ α` has states from `σ` and reads symbols from `α`; an edge without a label is silent and
reads nothing.  The structure holds whatever it is given; `Nfa.Valid` says that the start, the ends
of all edges and the accepting states are states and that every label is in the alphabet.
-/

namespace FiniteAutomata

variable {σ τ α : Type}

/-! ## Edges -/

/-- An edge; without a label it is silent. -/
structure Transition (σ α : Type) where
  source : σ
  target : σ
  label : Option α

namespace Transition

/-- An edge that reads nothing. -/
def silent (source target : σ) : Transition σ α := ⟨source, target, none⟩

/-- An edge that reads `c`. -/
def reading (source target : σ) (c : α) : Transition σ α := ⟨source, target, some c⟩

/-- The edge between the images of the ends. -/
def map (f : σ → τ) (t : Transition σ α) : Transition τ α := ⟨f t.source, f t.target, t.label⟩

/-- By source, then by target, then by label; a silent edge comes before the labelled ones. -/
instance [Ordered σ] [Ordered α] : Ordered (Transition σ α) :=
  Ordered.ofCompare
    (fun s t => (compare s.source t.source).then
      ((compare s.target t.target).then (compare s.label t.label)))
    (fun s t => Ordered.swap_compare (s.source, s.target, s.label) (t.source, t.target, t.label))
    (fun ⟨_, _, _⟩ ⟨_, _, _⟩ h => by
      obtain ⟨h₁, h₂⟩ := Ordering.then_eq_eq.1 h
      obtain ⟨h₂, h₃⟩ := Ordering.then_eq_eq.1 h₂
      cases Ordered.compare_eq_iff.1 h₁
      cases Ordered.compare_eq_iff.1 h₂
      cases Ordered.compare_eq_iff.1 h₃
      rfl)
    (fun s t u hst htu =>
      Ordered.lt_trans (a := (s.source, s.target, s.label)) (b := (t.source, t.target, t.label))
        (c := (u.source, u.target, u.label)) hst htu)

end Transition

/-! ## Automata -/

/-- A nondeterministic automaton with silent edges. -/
structure Nfa (σ α : Type) [Ordered σ] [Ordered α] where
  states : OrdSet σ
  alphabet : OrdSet α
  start : σ
  transitions : OrdSet (Transition σ α)
  accepting : OrdSet σ

namespace Nfa

variable [Ordered σ] [Ordered τ] [Ordered α]

@[ext] theorem ext : ∀ {n m : Nfa σ α}, n.states = m.states → n.alphabet = m.alphabet →
    n.start = m.start → n.transitions = m.transitions → n.accepting = m.accepting → n = m
  | ⟨_, _, _, _, _⟩, ⟨_, _, _, _, _⟩, rfl, rfl, rfl, rfl, rfl => rfl

instance : DecidableEq (Nfa σ α) := fun n m =>
  decidable_of_iff (n.states = m.states ∧ n.alphabet = m.alphabet ∧ n.start = m.start ∧
      n.transitions = m.transitions ∧ n.accepting = m.accepting)
    ⟨fun ⟨h₁, h₂, h₃, h₄, h₅⟩ => ext h₁ h₂ h₃ h₄ h₅, by rintro rfl; simp⟩

/-- The start, the ends of all edges and the accepting states are states; labels are symbols of the
alphabet. -/
def Valid (n : Nfa σ α) : Prop :=
  n.start ∈ n.states ∧
    (∀ t ∈ n.transitions, t.source ∈ n.states ∧ t.target ∈ n.states ∧
      ∀ c ∈ t.label, c ∈ n.alphabet) ∧
    n.accepting ⊆ n.states

instance (n : Nfa σ α) : Decidable n.Valid := inferInstanceAs (Decidable (_ ∧ _ ∧ _))

/-- Renames every state. States with one new name become one state. -/
def mapStates (f : σ → τ) (n : Nfa σ α) : Nfa τ α where
  states := n.states.map f
  alphabet := n.alphabet
  start := f n.start
  transitions := n.transitions.map (·.map f)
  accepting := n.accepting.map f

/-- The states that the automaton mentions, listed or not. -/
def occurring (n : Nfa σ α) : OrdSet σ :=
  insert n.start (n.states ∪ (n.accepting ∪
    (n.transitions.map Transition.source ∪ n.transitions.map Transition.target)))

theorem start_mem_occurring (n : Nfa σ α) : n.start ∈ n.occurring := by simp [occurring]

theorem mem_occurring_of_mem_accepting {n : Nfa σ α} {q : σ} (hq : q ∈ n.accepting) :
    q ∈ n.occurring := by simp [occurring, hq]

theorem source_mem_occurring {n : Nfa σ α} {t : Transition σ α} (ht : t ∈ n.transitions) :
    t.source ∈ n.occurring := by
  have hsource : ∃ t' ∈ n.transitions, t'.source = t.source := ⟨t, ht, rfl⟩
  simp [occurring, hsource]

theorem target_mem_occurring {n : Nfa σ α} {t : Transition σ α} (ht : t ∈ n.transitions) :
    t.target ∈ n.occurring := by
  have htarget : ∃ t' ∈ n.transitions, t'.target = t.target := ⟨t, ht, rfl⟩
  simp [occurring, htarget]

/-! ## The smallest automata -/

/-- Accepts nothing. -/
def empty (alphabet : OrdSet α) : Nfa Unit α := ⟨{()}, alphabet, (), ∅, ∅⟩

/-- Accepts the empty word only. -/
def epsilon (alphabet : OrdSet α) : Nfa Unit α := ⟨{()}, alphabet, (), ∅, {()}⟩

/-- Accepts the word `c` only; there is no such automaton over an alphabet without `c`. -/
def symbol? (alphabet : OrdSet α) (c : α) : Option (Nfa Bool α) :=
  if c ∈ alphabet then
    some ⟨.ofList [false, true], alphabet, false, {.reading false true c}, {true}⟩
  else
    none

end Nfa

end FiniteAutomata
