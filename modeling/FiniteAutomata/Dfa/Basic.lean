import FiniteAutomata.OrdMap.Basic

/-!
# Dfa/Basic — deterministic automata with an implicit dead state

A `Dfa σ α` has one row of entries per state, from symbols to states.  Where an entry is missing
the automaton falls into the dead state, which accepts nothing and which no symbol leaves.  The dead
state is not stored: wherever a state is threaded through an operation it is an `Option σ`, and
`none` is the dead state.  An automaton without a start starts there.
-/

namespace FiniteAutomata

variable {σ τ α : Type}

/-- A deterministic automaton with an implicit dead state. -/
structure Dfa (σ α : Type) [Ordered σ] [Ordered α] where
  states : OrdSet σ
  alphabet : OrdSet α
  start : Option σ
  rows : OrdMap σ (OrdMap α σ)
  accepting : OrdSet σ

namespace Dfa

variable [Ordered σ] [Ordered τ] [Ordered α]

@[ext] theorem ext : ∀ {a b : Dfa σ α}, a.states = b.states → a.alphabet = b.alphabet →
    a.start = b.start → a.rows = b.rows → a.accepting = b.accepting → a = b
  | ⟨_, _, _, _, _⟩, ⟨_, _, _, _, _⟩, rfl, rfl, rfl, rfl, rfl => rfl

instance : DecidableEq (Dfa σ α) := fun a b =>
  decidable_of_iff (a.states = b.states ∧ a.alphabet = b.alphabet ∧ a.start = b.start ∧
      a.rows = b.rows ∧ a.accepting = b.accepting)
    ⟨fun ⟨h₁, h₂, h₃, h₄, h₅⟩ => ext h₁ h₂ h₃ h₄ h₅, by rintro rfl; simp⟩

/-- The start, the states that have rows, the targets of all entries and the accepting states are
states; entries are for symbols of the alphabet. -/
def Valid (d : Dfa σ α) : Prop :=
  (∀ q ∈ d.start, q ∈ d.states) ∧
    (∀ row ∈ d.rows.entries, row.1 ∈ d.states ∧
      ∀ entry ∈ row.2.entries, entry.1 ∈ d.alphabet ∧ entry.2 ∈ d.states) ∧
    d.accepting ⊆ d.states

instance (d : Dfa σ α) : Decidable d.Valid := inferInstanceAs (Decidable (_ ∧ _ ∧ _))

/-- The states and the dead state. -/
def withDead (d : Dfa σ α) : OrdSet (Option σ) := insert none (d.states.map some)

/-- Renames every state. -/
def mapStates (f : σ → τ) (d : Dfa σ α) : Dfa τ α where
  states := d.states.map f
  alphabet := d.alphabet
  start := d.start.map f
  rows := d.rows.map f (·.map id f)
  accepting := d.accepting.map f

/-- All entries: source, symbol and target, by source and then by symbol. -/
def entries (d : Dfa σ α) : List (σ × α × σ) :=
  d.rows.entries.flatMap fun row => row.2.entries.map fun entry => (row.1, entry.1, entry.2)

/-! ## The smallest automata -/

/-- Accepts nothing: it starts in the dead state. -/
def empty (alphabet : OrdSet α) : Dfa Unit α := ⟨∅, alphabet, none, ∅, ∅⟩

/-- Accepts every word over the alphabet. -/
def full (alphabet : OrdSet α) : Dfa Unit α where
  states := {()}
  alphabet := alphabet
  start := some ()
  rows := .ofKeys {()} fun _ => .ofKeys alphabet fun _ => ()
  accepting := {()}

/-! ## Runs -/

/-- The state after one more symbol. -/
def step (d : Dfa σ α) (q : Option σ) (c : α) : Option σ := do
  (← d.rows.get? (← q)).get? c

/-- Whether a run that ends in `q` accepts. -/
def acceptsAt (d : Dfa σ α) (q : Option σ) : Bool := q.any d.accepting.contains

/-- The state after a word. -/
def run (d : Dfa σ α) (w : List α) : Option σ := w.foldl d.step d.start

/-- Whether the state after the word is accepting. -/
def accepts (d : Dfa σ α) (w : List α) : Bool := d.acceptsAt (d.run w)

@[simp] theorem run_nil (d : Dfa σ α) : d.run [] = d.start := rfl

@[simp] theorem run_concat (d : Dfa σ α) (w : List α) (c : α) :
    d.run (w ++ [c]) = d.step (d.run w) c := by simp [run]

@[simp] theorem step_dead (d : Dfa σ α) (c : α) : d.step none c = none := rfl

/-- A step looks up the symbol in the row of the state. -/
theorem step_eq_some_iff_get? {d : Dfa σ α} {q r : σ} {c : α} : d.step (some q) c = some r ↔
    ∃ row, d.rows.get? q = some row ∧ row.get? c = some r := Option.bind_eq_some_iff

/-- **A step follows an entry.** -/
theorem step_eq_some {d : Dfa σ α} {q r : σ} {c : α} :
    d.step (some q) c = some r ↔ (q, c, r) ∈ d.entries := by
  simp only [step, entries, Option.bind_eq_bind, Option.bind_some, Option.bind_eq_some_iff,
    OrdMap.get?_eq_some, List.mem_flatMap, List.mem_map, Prod.mk.injEq]
  constructor
  · rintro ⟨row, hrow, hentry⟩
    exact ⟨(q, row), hrow, (c, r), hentry, rfl, rfl, rfl⟩
  · rintro ⟨⟨_, row⟩, hrow, ⟨_, _⟩, hentry, rfl, rfl, rfl⟩
    exact ⟨row, hrow, hentry⟩

end Dfa

end FiniteAutomata
