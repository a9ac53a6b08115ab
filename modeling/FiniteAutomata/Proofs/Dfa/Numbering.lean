import FiniteAutomata.Proofs.Dfa.Bisimulation

/-!
# Proofs/Dfa/Numbering — relabelling an automaton of any kind

The start, the rows and the accepting states of an automaton need not be states, and its entries
may be for foreign symbols.  Words over the alphabet then reach some states, and an entry for a
foreign symbol may lead from them to a state that no such word reaches.  These entries are all
that stands in the way of relabelling (`relabel?_eq_none`); without them the numbered automaton
runs like the old one on every word, and is its own relabelled automaton (`relabel?_relabel?`).
-/

namespace FiniteAutomata.Dfa

variable {σ α : Type} [Ordered σ] [Ordered α] {d : Dfa σ α} {e : Dfa Nat α}

/-- Some word over the alphabet leads to the state. -/
def Reaches (d : Dfa σ α) (q : σ) : Prop := ∃ w, Over d.alphabet w ∧ d.run w = some q

/-- The present states are those that words over the alphabet reach. -/
theorem mem_present_iff_reaches {q : σ} : q ∈ d.present ↔ d.Reaches q :=
  mem_present.trans mem_reachable_iff

/-! ## Entries that lead out -/

/-- The entry `(q, c, r)` leads from a state that is reached to one that is not. -/
structure Escape (d : Dfa σ α) (q : σ) (c : α) (r : σ) : Prop where
  entry : (q, c, r) ∈ d.entries
  source : d.Reaches q
  target : ¬d.Reaches r

/-- Symbols of the alphabet do not lead out. -/
theorem Escape.foreign {q r : σ} {c : α} (h : d.Escape q c r) : c ∉ d.alphabet := by
  intro hc
  obtain ⟨w, hw, hq⟩ := h.source
  have hstep : d.step (some q) c = some r := step_eq_some.2 h.entry
  exact h.target ⟨w ++ [c], over_concat.2 ⟨hw, hc⟩, run_concat_eq_some.2 ⟨q, hq, hstep⟩⟩

/-- **There is no relabelled automaton exactly if some entry leads out.** -/
theorem relabel?_eq_none : d.relabel? = none ↔ ∃ q c r, d.Escape q c r := by
  rw [← Option.not_isSome_iff_eq_none, isSome_relabel?_iff]
  constructor
  · intro h
    simp only [not_forall] at h
    obtain ⟨q, hq, c, r, hstep, hr⟩ := h
    exact ⟨q, c, r, step_eq_some.1 hstep, mem_present_iff_reaches.1 hq,
      fun hreach => hr (mem_present_iff_reaches.2 hreach)⟩
  · rintro ⟨q, c, r, hentry, hq, hr⟩ h
    have hr' := h q (mem_present_iff_reaches.2 hq) c r (step_eq_some.2 hentry)
    exact hr (mem_present_iff_reaches.1 hr')

/-! ## The numbered automaton -/

section Numbered

variable (h : d.relabel? = some e)

include h

/-- All numbers are reached. -/
theorem reaches_relabel? {i : Nat} (hi : i ∈ e.states) : e.Reaches i :=
  mem_reachable_iff.1 (mem_reachable_relabel? h hi)

/-- **Rows are neither lost nor made up**, with entries or without. -/
theorem isSome_get?_relabel?_rows {i : Nat} : (e.rows.get? i).isSome ↔
    ∃ q, d.present.number? q = some i ∧ (d.rows.get? q).isSome := by
  simp only [Option.isSome_iff_exists, get?_relabel?_rows h]
  constructor
  · rintro ⟨_, q, row, hrow, hq, -⟩
    exact ⟨q, hq, row, hrow⟩
  · rintro ⟨q, hq, row, hrow⟩
    obtain ⟨row', hrow'⟩ := exists_traverse?_row h (OrdSet.mem_of_number? hq) hrow
    exact ⟨row', q, row, hrow, hq, hrow'⟩

/-- **Relabelling twice is relabelling once.** -/
theorem relabel?_relabel? : e.relabel? = some e :=
  ((bisimulation_relabel? h).relabel?_eq (KeepsOrder.number _)).symm.trans h

end Numbered

/-- **Relabelling an automaton of any kind.**  It fails exactly if an entry leads from a state
that words over the alphabet reach to one that they do not; such an entry is for a foreign symbol,
so a valid automaton has none.  Otherwise the states are the numbers up to the number of states
that were reached, all of them are reached again, the same words are accepted, whatever their
symbols, exactly the states that had a row have one, and relabelling again changes nothing. -/
theorem relabelling_of_any_automaton (d : Dfa σ α) :
    (d.relabel? = none ↔ ∃ q c r, d.Escape q c r) ∧
      (∀ q c r, d.Escape q c r → c ∉ d.alphabet) ∧ (d.Valid → d.relabel?.isSome) ∧
      ∀ e, d.relabel? = some e →
        (∀ q, q ∈ d.present ↔ d.Reaches q) ∧ (∀ i, i ∈ e.states ↔ 1 ≤ i ∧ i ≤ d.present.size) ∧
          (∀ i ∈ e.states, e.Reaches i) ∧ (∀ w, e.accepts w = d.accepts w) ∧
          (∀ i, (e.rows.get? i).isSome ↔
            ∃ q, d.present.number? q = some i ∧ (d.rows.get? q).isSome) ∧
          e.relabel? = some e := by
  refine ⟨relabel?_eq_none, fun _ _ _ => Escape.foreign, ?_, ?_⟩
  · intro hd
    exact Option.isSome_iff_exists.2 (exists_relabel? hd)
  · intro e h
    refine ⟨fun _ => mem_present_iff_reaches, fun i => ?_, fun _ => reaches_relabel? h,
      accepts_relabel? h, fun _ => isSome_get?_relabel?_rows h, relabel?_relabel? h⟩
    rw [states_relabel? h, OrdSet.mem_upTo]

/-- It starts outside its states, and for the foreign symbol `b` it has an entry that leads
to `r`. -/
def unlisted (r : Nat) : Dfa Nat Char where
  states := .ofList [1, 4]
  alphabet := .ofList ['a']
  start := some 5
  rows := .ofList [(1, ∅), (5, .ofList [('a', 1), ('b', r)]), (9, .ofList [('a', 5)])]
  accepting := .ofList [1, 8]

/-- If `b` leads to `1`, which `a` reaches too, the start and `1` are numbered, although `1` has
an empty row and the start is no state; if it leads to `9`, they cannot be. -/
theorem relabelling_of_unlisted :
    (¬(unlisted 1).Valid ∧ ∃ e, (unlisted 1).relabel? = some e ∧
      (∀ i, i ∈ e.states ↔ 1 ≤ i ∧ i ≤ 2) ∧ e.accepts ['b'] ∧ (e.rows.get? 1).isSome ∧
      e.relabel? = some e) ∧
    ((unlisted 9).Escape 5 'b' 9 ∧ 'b' ∉ (unlisted 9).alphabet ∧ (unlisted 9).relabel? = none) ∧
    (empty (.ofList ['a'])).Valid ∧ (empty (.ofList ['a'])).relabel?.isSome := by
  obtain ⟨e, he⟩ : ∃ e, (unlisted 1).relabel? = some e :=
    Option.isSome_iff_exists.1 (by decide +kernel)
  obtain ⟨-, -, -, hnumbered⟩ := relabelling_of_any_automaton (unlisted 1)
  obtain ⟨-, hstates, -, haccepts, hrows, hagain⟩ := hnumbered e he
  obtain ⟨hnone, hforeign, -, -⟩ := relabelling_of_any_automaton (unlisted 9)
  have hsize : (unlisted 1).present.size = 2 := by decide +kernel
  have hone : (unlisted 1).present.number? 1 = some 1 := by decide +kernel
  have hlost : ¬(unlisted 9).Reaches 9 := by
    rw [← mem_present_iff_reaches]
    decide +kernel
  have hescape : (unlisted 9).Escape 5 'b' 9 := ⟨by decide, ⟨[], over_nil _, rfl⟩, hlost⟩
  have hvalid : (empty (.ofList ['a'])).Valid := by decide
  refine ⟨⟨by decide, e, he, hsize ▸ hstates, ?_, (hrows 1).2 ⟨1, hone, by decide⟩, hagain⟩,
    ⟨hescape, hforeign 5 'b' 9 hescape, hnone.2 ⟨5, 'b', 9, hescape⟩⟩, hvalid,
    (relabelling_of_any_automaton (empty (.ofList ['a']))).2.2.1 hvalid⟩
  rw [haccepts]
  decide

end FiniteAutomata.Dfa
