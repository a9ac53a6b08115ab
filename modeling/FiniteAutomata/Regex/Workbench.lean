import FiniteAutomata.Regex.Thompson

/-!
# Regex/Workbench — the construction, one turn at a time

Between two turns of the construction some tasks are left to do and some automata are built.
`Workbench.turn` does the first task, and the construction is one turn after the other until no
task is left (`assemble_cons`).  `Workbench.Turns` counts the turns from one workbench to another,
and `Workbench.ComesTo` those up to a symbol.

`turns` and `foreign?` are read off the expression alone: how many turns it takes, and the symbol at
which the construction stops, the first one from left to right that the alphabet does not have.
-/

namespace FiniteAutomata.Regex

variable {α : Type} [Ordered α]

/-! ## Turns -/

/-- The tasks left to do, the next one first, and the automata built, the last one first. -/
structure Workbench (α : Type) [Ordered α] where
  tasks : List (Task α)
  built : List (Nfa Nat α)

namespace Workbench

/-- The whole expression is still to be visited. -/
def start (r : Regex α) : Workbench α := ⟨[.visit r], []⟩

/-- Relabels an automaton and puts it on top of the others. -/
def put {σ : Type} [Ordered σ] (b : Workbench α) (n : Nfa σ α) :
    Run (BuildError α) (Workbench α) := do
  return ⟨b.tasks, (← relabelled n) :: b.built⟩

/-- Does the first task. -/
def turn (alphabet : OrdSet α) : Workbench α → Run (BuildError α) (Workbench α)
  | ⟨.visit empty :: tasks, built⟩ => put ⟨tasks, built⟩ (Nfa.empty alphabet)
  | ⟨.visit epsilon :: tasks, built⟩ => put ⟨tasks, built⟩ (Nfa.epsilon alphabet)
  | ⟨.visit (symbol c) :: tasks, built⟩ => do
    put ⟨tasks, built⟩ (← Run.ofOption (.foreignSymbol c) (Nfa.symbol? alphabet c))
  | ⟨.visit (concat l r) :: tasks, built⟩ =>
    return ⟨.visit l :: .visit r :: .concat :: tasks, built⟩
  | ⟨.visit (union l r) :: tasks, built⟩ =>
    return ⟨.visit l :: .visit r :: .union :: tasks, built⟩
  | ⟨.visit (star r) :: tasks, built⟩ => return ⟨.visit r :: .star :: tasks, built⟩
  | ⟨.concat :: tasks, r :: l :: built⟩ => do
    put ⟨tasks, built⟩ (← Run.ofOption .alphabetMismatch (l.concat? r))
  | ⟨.union :: tasks, r :: l :: built⟩ => do
    put ⟨tasks, built⟩ (← Run.ofOption .alphabetMismatch (l.union? r))
  | ⟨.star :: tasks, n :: built⟩ => put ⟨tasks, built⟩ n.star
  | _ => Run.fail .missingOperand

/-- `Turns alphabet k b b'`: after `k` turns, none of which fails, `b` has become `b'`. -/
inductive Turns (alphabet : OrdSet α) : Nat → Workbench α → Workbench α → Prop
  | none (b : Workbench α) : Turns alphabet 0 b b
  | more {k : Nat} {b b' b'' : Workbench α} : (b.turn alphabet).outcome = .ok b' →
      Turns alphabet k b' b'' → Turns alphabet (k + 1) b b''

theorem Turns.append {alphabet : OrdSet α} {j k : Nat} {b b' b'' : Workbench α}
    (h : Turns alphabet j b b') (h' : Turns alphabet k b' b'') : Turns alphabet (j + k) b b'' := by
  induction h with
  | none => rwa [Nat.zero_add]
  | more hturn _ ih =>
    rw [Nat.add_right_comm]
    exact .more hturn (ih h')

/-- In fewer than `n` turns, none of which fails, `b` comes to the visit of the symbol `c`. -/
def ComesTo (alphabet : OrdSet α) (n : Nat) (b : Workbench α) (c : α) : Prop :=
  ∃ k < n, ∃ tasks built, Turns alphabet k b ⟨.visit (symbol c) :: tasks, built⟩

theorem ComesTo.after {alphabet : OrdSet α} {j n m : Nat} {b b' : Workbench α} {c : α}
    (h : ComesTo alphabet n b' c) (hturns : Turns alphabet j b b') (hm : j + n ≤ m) :
    ComesTo alphabet m b c := by
  obtain ⟨k, hk, tasks, built, hto⟩ := h
  exact ⟨j + k, by omega, tasks, built, hturns.append hto⟩

end Workbench

/-- **The construction takes turns** until no task is left, with what each of them reports. -/
theorem assemble_cons (alphabet : OrdSet α) (task : Task α) (tasks : List (Task α))
    (built : List (Nfa Nat α)) : assemble alphabet (task :: tasks) built =
      Workbench.turn alphabet ⟨task :: tasks, built⟩ >>= fun b =>
        assemble alphabet b.tasks b.built := by
  cases task with
  | visit r =>
    cases r <;>
      simp only [assemble, Workbench.turn, Workbench.put, bind_assoc, pure_bind]
  | concat | union =>
    rcases built with _ | ⟨r, _ | ⟨l, built⟩⟩
    · simp only [assemble, Workbench.turn, Run.fail_bind]
    · simp only [assemble, Workbench.turn, Run.fail_bind]
    · simp only [assemble, Workbench.turn, Workbench.put, bind_assoc, pure_bind]
  | star =>
    rcases built with _ | ⟨n, built⟩
    · simp only [assemble, Workbench.turn, Run.fail_bind]
    · simp only [assemble, Workbench.turn, Workbench.put, bind_assoc, pure_bind]

/-! ## What the expression says -/

/-- The number of turns that an expression takes: one for every atom, and one before and one after
the operands of an operator. -/
def turns : Regex α → Nat
  | concat l r | union l r => l.turns + r.turns + 2
  | star r => r.turns + 2
  | _ => 1

/-- The first symbol from left to right that the alphabet does not have. -/
def foreign? (alphabet : OrdSet α) (r : Regex α) : Option α :=
  r.letters.find? fun c => !alphabet.contains c

end FiniteAutomata.Regex
