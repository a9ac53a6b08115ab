import FiniteAutomata.Proofs.Dfa.Words

/-!
# Proofs/Dfa/Tabulation — automata whose rows tabulate a function

Complement, product and subset construction give every state an entry for every symbol, computed
by a function of both (`Tabulates`).  Such an automaton is valid as soon as the function leads
from states to states (`Tabulates.valid`), and whatever is stepped as the function says is
followed by the run (`Tabulates.run_eq`): an automaton on `Option σ` follows the run of another
one, dead state included, one on pairs follows two runs, one on sets follows the set of states a
run can be in.
-/

namespace FiniteAutomata.Dfa

variable {σ α : Type} [Ordered σ] [Ordered α] {d : Dfa σ α}

/-- Every state has an entry for every symbol of the alphabet, and the entry is `next`. -/
def Tabulates (d : Dfa σ α) (next : σ → α → σ) : Prop :=
  d.rows = .ofKeys d.states fun q => .ofKeys d.alphabet (next q)

namespace Tabulates

variable {next : σ → α → σ} (h : d.Tabulates next)

include h

/-- **A step is a step of the function**, at the states and for the symbols of the alphabet. -/
theorem step_eq_some_iff {q r : σ} {c : α} :
    d.step (some q) c = some r ↔ q ∈ d.states ∧ c ∈ d.alphabet ∧ next q c = r := by
  rw [step_eq_some_iff_get?, h]
  simp only [OrdMap.get?_ofKeys_eq_some]
  constructor
  · rintro ⟨_, ⟨hq, rfl⟩, hentry⟩
    exact ⟨hq, OrdMap.get?_ofKeys_eq_some.1 hentry⟩
  · rintro ⟨hq, hentry⟩
    exact ⟨_, ⟨hq, rfl⟩, OrdMap.get?_ofKeys_eq_some.2 hentry⟩

/-- **It is valid** if the function leads from states to states. -/
theorem valid (hstart : ∀ q ∈ d.start, q ∈ d.states)
    (hnext : ∀ q ∈ d.states, ∀ c ∈ d.alphabet, next q c ∈ d.states)
    (haccepting : d.accepting ⊆ d.states) : d.Valid := by
  refine ⟨hstart, ?_, haccepting⟩
  rw [h]
  rintro ⟨q, row⟩ hrow
  obtain ⟨hq, rfl⟩ := OrdMap.get?_ofKeys_eq_some.1 (OrdMap.get?_eq_some.2 hrow)
  refine ⟨hq, ?_⟩
  rintro ⟨c, r⟩ hentry
  obtain ⟨hc, rfl⟩ := OrdMap.get?_ofKeys_eq_some.1 (OrdMap.get?_eq_some.2 hentry)
  exact ⟨hc, hnext q hq c hc⟩

/-- **The run follows what is stepped as the function says**, if that stays among the states. -/
theorem run_eq {f : List α → σ} (hstart : d.start = some (f [])) (hmem : ∀ w, f w ∈ d.states)
    (hnext : ∀ w c, next (f w) c = f (w ++ [c])) {w : List α} (hw : Over d.alphabet w) :
    d.run w = some (f w) := by
  induction w using List.reverseRecOn with
  | nil => exact hstart
  | append_singleton w c ih =>
    obtain ⟨hw, hc⟩ := over_concat.1 hw
    rw [run_concat, ih hw]
    exact h.step_eq_some_iff.2 ⟨hmem w, hc, hnext w c⟩

end Tabulates

/-- A run that ends in a state accepts if the state does. -/
theorem accepts_iff_mem {w : List α} {q : σ} (h : d.run w = some q) :
    d.accepts w ↔ q ∈ d.accepting := by
  rw [accepts, h, acceptsAt, Option.any_some, OrdSet.contains_iff]

/-- A word is accepted if the run ends in a state that is accepting. -/
theorem accepts_iff_exists {w : List α} :
    d.accepts w ↔ ∃ q, d.run w = some q ∧ q ∈ d.accepting := by
  simp only [accepts, acceptsAt, Option.any_eq_true, OrdSet.contains_iff]

/-- The dead state is out of reach if every run over the alphabet ends in a state. -/
theorem none_notMem_reachable (h : ∀ w, Over d.alphabet w → (d.run w).isSome) :
    none ∉ d.reachable := by
  intro hnone
  obtain ⟨w, hw, hrun⟩ := mem_reachable_iff.1 hnone
  exact nomatch hrun ▸ h w hw

end FiniteAutomata.Dfa
