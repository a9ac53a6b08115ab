import FiniteAutomata.Nfa.ToDfa
import FiniteAutomata.Proofs.Dfa.Tabulation
import FiniteAutomata.Proofs.Nfa.Acceptance

/-!
# Proofs/Nfa/Determinization — the subset construction keeps the language

All subsets are states, so on a valid automaton no step leads out of them: after a word over the
alphabet the deterministic automaton is in the set of states the run holds (`run_toDfa`).  A word
with a foreign symbol is rejected by both.
-/

namespace FiniteAutomata.Nfa

variable {σ α : Type} [Ordered σ] [Ordered α] {n : Nfa σ α}

/-! ## Paths of a valid automaton -/

/-- A path of a valid automaton stays among its states. -/
theorem Valid.path_mem (hn : n.Valid) {p q : σ} {w : List α} (h : n.Path p w q)
    (hp : p ∈ n.states) : q ∈ n.states := by
  induction h using Path.edgeInduction with
  | nil => exact hp
  | edge ht _ ih => exact ih (hn.2.1 _ ht).2.1

/-- A path of a valid automaton spells a word over its alphabet. -/
theorem Valid.over_of_path (hn : n.Valid) {p q : σ} {w : List α} (h : n.Path p w q) :
    Over n.alphabet w := by
  induction h using Path.edgeInduction with
  | nil => exact over_nil _
  | edge ht _ ih =>
    intro c hc
    rcases List.mem_append.1 hc with hc | hc
    · exact (hn.2.1 _ ht).2.2 c (Option.mem_toList.1 hc)
    · exact ih c hc

theorem Valid.run_subset (hn : n.Valid) (w : List α) : n.run w ⊆ n.states :=
  fun _ hq => hn.path_mem (mem_run.1 hq) hn.1

/-- A step of a valid automaton leads to a set of its states. -/
theorem Valid.step_subset (hn : n.Valid) (s : OrdSet σ) (c : α) : n.step s c ⊆ n.states := by
  intro q hq
  obtain ⟨p', hp', hpath⟩ := mem_closure.1 hq
  obtain ⟨p, _, ht⟩ := mem_move.1 hp'
  exact hn.path_mem hpath (hn.2.1 _ ht).2.1

/-! ## The subset construction -/

theorem tabulates_toDfa : n.toDfa.Tabulates n.step := rfl

/-- A subset accepts when the set of its states would accept as what a run holds. -/
theorem mem_toDfa_accepting {s : OrdSet σ} :
    s ∈ n.toDfa.accepting ↔ s ∈ n.states.powerset ∧ s.meets n.accepting = true := OrdSet.mem_filter

theorem step_toDfa {s t : OrdSet σ} {c : α} : n.toDfa.step (some s) c = some t ↔
    s ⊆ n.states ∧ c ∈ n.alphabet ∧ n.step s c = t :=
  tabulates_toDfa.step_eq_some_iff.trans (and_congr_left' OrdSet.mem_powerset)

/-- Every subset has an entry for every symbol. -/
theorem complete_toDfa (hn : n.Valid) : n.toDfa.Complete := by
  intro s hs c hc
  exact ⟨n.step s c, OrdSet.mem_powerset.2 (hn.step_subset s c),
    step_toDfa.2 ⟨OrdSet.mem_powerset.1 hs, hc, rfl⟩⟩

theorem valid_toDfa (hn : n.Valid) : n.toDfa.Valid := by
  refine tabulates_toDfa.valid ?_ (fun s _ c _ => OrdSet.mem_powerset.2 (hn.step_subset s c)) ?_
  · intro s hs
    obtain rfl := Option.some.inj hs
    exact OrdSet.mem_powerset.2 (hn.run_subset [])
  · intro s hs
    exact (mem_toDfa_accepting.1 hs).1

/-- **After a word over the alphabet** the automaton is in the set of states the run holds. -/
theorem run_toDfa (hn : n.Valid) {w : List α} (hw : Over n.alphabet w) :
    n.toDfa.run w = some (n.run w) := by
  have hmem : ∀ w, n.run w ∈ n.toDfa.states := fun w => OrdSet.mem_powerset.2 (hn.run_subset w)
  exact tabulates_toDfa.run_eq rfl hmem (fun w c => (run_concat n w c).symm) hw

/-- The subsets that are reached are the sets of states that runs over the alphabet hold. -/
theorem mem_reachable_toDfa (hn : n.Valid) {s : Option (OrdSet σ)} :
    s ∈ n.toDfa.reachable ↔ ∃ w, Over n.alphabet w ∧ some (n.run w) = s := by
  rw [Dfa.mem_reachable_iff]
  refine exists_congr fun w => and_congr_right fun hw => ?_
  rw [run_toDfa hn hw]

/-- **The subset construction keeps the language.** -/
theorem accepts_toDfa (hn : n.Valid) (w : List α) : n.toDfa.accepts w = n.accepts w := by
  by_cases hw : Over n.alphabet w
  · have hmem : n.run w ∈ n.states.powerset := OrdSet.mem_powerset.2 (hn.run_subset w)
    rw [Bool.eq_iff_iff, Dfa.accepts_iff_mem (run_toDfa hn hw), accepts, mem_toDfa_accepting,
      and_iff_right hmem]
  · rw [(valid_toDfa hn).accepts_eq_false hw, eq_comm, Bool.eq_false_iff, Ne,
      accepts_iff_recognizes]
    rintro ⟨_, _, hpath⟩
    exact hw (hn.over_of_path hpath)

/-- **The subset construction simulates the automaton**: its states are the subsets, every subset
has an entry for every symbol, and in step with a run over the alphabet it is in the set the run
holds. -/
theorem toDfa_simulates (hn : n.Valid) :
    n.toDfa.Valid ∧ n.toDfa.alphabet = n.alphabet ∧
      (∀ s, s ∈ n.toDfa.states ↔ s ⊆ n.states) ∧
      (∀ s, s ⊆ n.states → ∀ c ∈ n.alphabet,
        n.toDfa.step (some s) c = some (n.step s c) ∧ n.step s c ⊆ n.states) ∧
      (∀ w, (∀ c ∈ w, c ∈ n.alphabet) → n.toDfa.run w = some (n.run w)) ∧
      ∀ w, n.toDfa.accepts w = n.accepts w := by
  refine ⟨valid_toDfa hn, rfl, fun s => OrdSet.mem_powerset, ?_, ?_, accepts_toDfa hn⟩
  · intro s hs c hc
    -- where the step leads was put among the states beforehand
    have hstep : n.step s c ⊆ n.states := hn.step_subset s c
    exact ⟨step_toDfa.2 ⟨hs, hc, rfl⟩, hstep⟩
  · intro w hw
    exact run_toDfa hn hw

/-- A circle of silent edges, which `a` leaves and `b` comes back to. -/
def silentCycle : Nfa Nat Char where
  states := .ofList [0, 1, 2]
  alphabet := .ofList ['a', 'b']
  start := 0
  transitions := .ofList [.silent 0 1, .silent 1 0, .reading 1 2 'a', .reading 2 0 'b']
  accepting := {2}

/-- The deterministic automaton of the circle, on a word over the alphabet and on a foreign one. -/
theorem toDfa_silentCycle : silentCycle.Valid ∧
    silentCycle.toDfa.run ['a', 'b'] = some (.ofList [0, 1]) ∧
    silentCycle.toDfa.accepts ['a', 'c'] = false := by
  have hvalid : silentCycle.Valid := by decide
  obtain ⟨-, -, -, -, hrun, haccepts⟩ := toDfa_simulates hvalid
  have hback : silentCycle.run ['a', 'b'] = .ofList [0, 1] := by decide +kernel
  have hforeign : silentCycle.accepts ['a', 'c'] = false := by decide +kernel
  have hover : ∀ c ∈ ['a', 'b'], c ∈ silentCycle.alphabet := by simp [silentCycle]
  exact ⟨hvalid, hback ▸ hrun ['a', 'b'] hover, (haccepts ['a', 'c']).trans hforeign⟩

end FiniteAutomata.Nfa
