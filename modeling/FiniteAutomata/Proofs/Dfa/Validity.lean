import FiniteAutomata.Dfa.Algebra
import FiniteAutomata.Dfa.ToNfa
import FiniteAutomata.Proofs.Dfa.Tabulation

/-!
# Proofs/Dfa/Validity — what is built from valid automata is valid

Most constructions tabulate a function of states and symbols, so they are valid if it leads from
states to states (`Tabulates.valid`).  The dead state is among the states of a complement, so a step
of a valid automaton never leads out.
-/

namespace FiniteAutomata.Dfa

variable {σ α : Type} [Ordered σ] [Ordered α]

/-! ## The smallest automata -/

theorem valid_empty (alphabet : OrdSet α) : (empty alphabet).Valid := by
  refine ⟨?_, ?_, fun _ hq => hq⟩
  · intro q hq
    exact nomatch hq
  · intro row hrow
    exact absurd hrow List.not_mem_nil

theorem valid_full (alphabet : OrdSet α) : (full alphabet).Valid := by
  have htable : (full alphabet).Tabulates fun _ _ => () := rfl
  have hstate : ∀ q : Unit, q ∈ ({()} : OrdSet Unit) := fun _ => OrdSet.mem_singleton.2 rfl
  exact htable.valid (fun q _ => hstate q) (fun _ _ _ _ => hstate ()) fun q _ => hstate q

/-! ## The dead state among the others -/

@[simp] theorem mem_withDead {d : Dfa σ α} {q : Option σ} :
    q ∈ d.withDead ↔ ∀ p, q = some p → p ∈ d.states := by
  cases q with
  | none => simp [withDead]
  | some q => simp [withDead]

variable {d : Dfa σ α}

/-- A step of a valid automaton leads to a state or to the dead one. -/
theorem Valid.step_mem_withDead (hd : d.Valid) (q : Option σ) (c : α) : d.step q c ∈ d.withDead := by
  rw [mem_withDead]
  intro r hr
  cases q with
  | none => exact nomatch hr
  | some q => exact (hd.step hr).2.2

theorem Valid.start_mem_withDead (hd : d.Valid) : d.start ∈ d.withDead := mem_withDead.2 hd.1

theorem tabulates_complement (d : Dfa σ α) : d.complement.Tabulates d.step := rfl

theorem mem_complement_accepting {q : Option σ} :
    q ∈ d.complement.accepting ↔ q ∈ d.withDead ∧ (!d.acceptsAt q) = true := OrdSet.mem_filter

theorem valid_complement (hd : d.Valid) : d.complement.Valid := by
  refine d.tabulates_complement.valid ?_ (fun q _ c _ => hd.step_mem_withDead q c) ?_
  · intro q hq
    obtain rfl := Option.some.inj hq
    exact hd.start_mem_withDead
  · intro q hq
    exact (mem_complement_accepting.1 hq).1

/-! ## The nondeterministic automaton -/

/-- The edges are the entries. -/
theorem mem_toNfa_transitions {t : Transition (Option σ) α} : t ∈ d.toNfa.transitions ↔
    ∃ q c r, d.step (some q) c = some r ∧ t = .reading (some q) (some r) c := by
  simp only [toNfa, OrdSet.mem_ofList, List.mem_map, step_eq_some]
  refine ⟨?_, ?_⟩
  · rintro ⟨⟨q, c, r⟩, hentry, rfl⟩
    exact ⟨q, c, r, hentry, rfl⟩
  · rintro ⟨q, c, r, hentry, rfl⟩
    exact ⟨(q, c, r), hentry, rfl⟩

theorem valid_toNfa (hd : d.Valid) : d.toNfa.Valid := by
  have hmem : ∀ q ∈ d.states, some q ∈ d.withDead := by simp
  refine ⟨hd.start_mem_withDead, ?_, ?_⟩
  · intro t ht
    obtain ⟨q, c, r, hstep, rfl⟩ := mem_toNfa_transitions.1 ht
    obtain ⟨hq, hc, hr⟩ := hd.step hstep
    refine ⟨hmem q hq, hmem r hr, ?_⟩
    intro c' hc'
    obtain rfl := Option.some.inj hc'
    exact hc
  · intro p hp
    obtain ⟨q, hq, rfl⟩ := OrdSet.mem_map.1 hp
    exact hmem q (hd.2.2 q hq)

end FiniteAutomata.Dfa
