import FiniteAutomata.Proofs.Dfa.Relabelling
import FiniteAutomata.Proofs.Nfa.Determinization
import FiniteAutomata.Proofs.Regex.Construction
import FiniteAutomata.Regex.Compile

/-!
# Proofs/Regex/Compilation — the deterministic automaton of an expression

The subset construction of a valid automaton is valid and complete, so its present states can be
numbered, and what is numbered keeps the language, the entries and nothing that cannot be reached
(`Nfa.Realizes.compiled`).  Compiling fails at a foreign symbol only (`toDfa_compiled_iff`).
-/

namespace FiniteAutomata

variable {α : Type} [Ordered α]

/-- What is to be had of the automaton of an expression: besides the language, that no state is
superfluous and none is missing. -/
structure Dfa.Compiled (d : Dfa Nat α) (alphabet : OrdSet α) (r : Regex α) : Prop where
  alphabet_eq : d.alphabet = alphabet
  valid : d.Valid
  accepts_eq : ∀ w, d.accepts w = r.accepts w
  isSome_start : d.start.isSome
  states_eq : ∃ n, 1 ≤ n ∧ d.states = .upTo n
  reachable : ∀ q ∈ d.states, some q ∈ d.reachable
  complete : ∀ q ∈ d.states, ∀ c ∈ alphabet, ∃ q' ∈ d.states, d.step (some q) c = some q'
  isSome_run : ∀ w : List α, (∀ c ∈ w, c ∈ alphabet) → (d.run w).isSome

/-- **The subsets that can be reached, numbered.** -/
theorem Nfa.Realizes.compiled {n : Nfa Nat α} {d : Dfa Nat α} {alphabet : OrdSet α} {r : Regex α}
    (hn : n.Realizes alphabet r) (hd : n.toDfa.relabel? = some d) : d.Compiled alphabet r := by
  have halphabet : d.alphabet = alphabet := (Dfa.alphabet_relabel? hd).trans hn.alphabet_eq
  have hvalid : d.Valid := Dfa.valid_relabel? hd (valid_toDfa hn.valid)
  have hcomplete : d.Complete :=
    Dfa.complete_relabel? hd (valid_toDfa hn.valid) (complete_toDfa hn.valid)
  -- the start has a number, so there is a state
  obtain ⟨i, hi⟩ : ∃ i, n.toDfa.present.number? n.begin = some i :=
    OrdSet.exists_number? (Dfa.start_mem_present rfl)
  have hstart : d.start = some i := (Dfa.start_relabel? hd).trans hi
  obtain ⟨hpos, hle⟩ := OrdSet.mem_upTo.1 (OrdSet.mem_upTo_size.2 ⟨_, hi⟩)
  refine
    { alphabet_eq := halphabet
      valid := hvalid
      accepts_eq := fun w => ?_
      isSome_start := hstart ▸ rfl
      states_eq := ⟨_, Nat.le_trans hpos hle, Dfa.states_relabel? hd⟩
      reachable := fun q hq => Dfa.mem_reachable_relabel? hd hq
      complete := halphabet ▸ hcomplete
      isSome_run := fun w hw => ?_ }
  · rw [Dfa.accepts_relabel? hd, accepts_toDfa hn.valid, hn.accepts_iff]
  · exact hcomplete.isSome_run hvalid (hstart ▸ rfl) (halphabet ▸ hw)

namespace Regex

/-- An expression over the alphabet is compiled. -/
theorem outcome_toDfa {alphabet : OrdSet α} {r : Regex α} (h : r.symbols ⊆ alphabet) :
    ∃ d, (r.toDfa alphabet).outcome = .ok d ∧ d.Compiled alphabet r := by
  obtain ⟨n, hn, hr⟩ := outcome_toNfa h
  obtain ⟨d, hd⟩ := Dfa.exists_relabel? (Nfa.valid_toDfa hr.valid)
  refine ⟨d, ?_, hr.compiled hd⟩
  rw [toDfa, Run.outcome_bind_of_ok hn, Run.outcome_bind_of_ok rfl, Run.outcome_bind_of_ok rfl,
    Run.outcome_ofOption_bind hd, Run.outcome_bind_of_ok rfl, Run.outcome_pure]

/-- A foreign symbol stops the compilation. -/
theorem outcome_toDfa_foreign {alphabet : OrdSet α} {r : Regex α} (h : ¬r.symbols ⊆ alphabet) :
    ∃ c, (r.toDfa alphabet).outcome = .error (.foreignSymbol c) := by
  obtain ⟨c, hc⟩ := outcome_toNfa_foreign h
  exact ⟨c, Run.outcome_bind_of_error hc _⟩

/-- **Exactly the expressions with a foreign symbol are refused**; every other one is compiled
into a valid automaton for the same words, on the states `1` to `n`, all of them reachable and
with an entry for every symbol. -/
theorem toDfa_compiled_iff (alphabet : OrdSet α) (r : Regex α) :
    ((∃ c, (r.toDfa alphabet).outcome = .error (.foreignSymbol c)) ↔
      ∃ c ∈ r.symbols, c ∉ alphabet) ∧
    ((∃ d, (r.toDfa alphabet).outcome = .ok d ∧ d.Compiled alphabet r) ↔
      ∀ c ∈ r.symbols, c ∈ alphabet) :=
  refused_iff_foreign outcome_toDfa outcome_toDfa_foreign

end Regex

end FiniteAutomata
