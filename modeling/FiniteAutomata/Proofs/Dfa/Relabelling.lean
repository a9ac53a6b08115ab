import FiniteAutomata.Dfa.Relabel
import FiniteAutomata.Proofs.Dfa.Words

/-!
# Proofs/Dfa/Relabelling — numbering the present states keeps the language

If there is a relabelled automaton, giving every present state its number carries each step over
(`step_relabel?`), for foreign symbols too, so both automata run alike on every word
(`run_relabel?`). For a valid automaton there always is one (`exists_relabel?`): its entries lead
from present states to present states.
-/

namespace FiniteAutomata.Dfa

variable {σ α : Type} [Ordered σ] [Ordered α] {d : Dfa σ α} {e : Dfa Nat α}

@[simp] theorem mem_present {q : σ} : q ∈ d.present ↔ some q ∈ d.reachable := by
  simp [present]

theorem start_mem_present {q : σ} (h : d.start = some q) : q ∈ d.present :=
  mem_present.2 (h ▸ d.start_mem_reachable)

omit [Ordered σ] in
theorem renumberRow?_eq_some {number? : σ → Option Nat} {q : σ} {row : OrdMap α σ} {i : Nat}
    {row' : OrdMap α Nat} : renumberRow? number? q row = some (i, row') ↔
      number? q = some i ∧ row.traverse? number? = some row' := by
  refine ⟨?_, ?_⟩
  · intro h
    obtain ⟨j, hj, h⟩ := Option.bind_eq_some_iff.1 h
    obtain ⟨row'', hrow, h⟩ := Option.bind_eq_some_iff.1 h
    obtain ⟨rfl, rfl⟩ := Prod.mk.inj (Option.some.inj h)
    exact ⟨hj, hrow⟩
  · rintro ⟨hq, hrow⟩
    rw [renumberRow?, hq, hrow]
    rfl

/-! ## The parts of the relabelled automaton -/

section Parts

variable (h : d.relabel? = some e)

include h

/-- The relabelled automaton with its look-ups written out. -/
theorem eq_of_relabel? : ∃ rows, (d.rows.entries.filter fun row => d.present.contains row.1).mapM
      (fun row => renumberRow? d.present.number? row.1 row.2) = some rows ∧
    e = ⟨.upTo d.present.size, d.alphabet, d.start.bind d.present.number?, .ofList rows,
      d.accepting.filterMap d.present.number?⟩ := by
  obtain ⟨rows, hrows, h⟩ := Option.bind_eq_some_iff.1 h
  exact ⟨rows, hrows, (Option.some.inj h).symm⟩

theorem states_relabel? : e.states = .upTo d.present.size := by
  obtain ⟨_, _, rfl⟩ := eq_of_relabel? h
  rfl

theorem mem_relabel?_states {i : Nat} : i ∈ e.states ↔ ∃ q, d.present.number? q = some i := by
  rw [states_relabel? h, OrdSet.mem_upTo_size]

theorem alphabet_relabel? : e.alphabet = d.alphabet := by
  obtain ⟨_, _, rfl⟩ := eq_of_relabel? h
  rfl

theorem start_relabel? : e.start = d.start.bind d.present.number? := by
  obtain ⟨_, _, rfl⟩ := eq_of_relabel? h
  rfl

theorem mem_relabel?_accepting {i : Nat} :
    i ∈ e.accepting ↔ ∃ q ∈ d.accepting, d.present.number? q = some i := by
  obtain ⟨_, _, rfl⟩ := eq_of_relabel? h
  exact OrdSet.mem_filterMap

/-- **The rows are those of the present states**, under their numbers and with numbers as
targets. -/
theorem get?_relabel?_rows {i : Nat} {row' : OrdMap α Nat} : e.rows.get? i = some row' ↔
    ∃ q row, d.rows.get? q = some row ∧ d.present.number? q = some i ∧
      row.traverse? d.present.number? = some row' := by
  obtain ⟨rows, hrows, rfl⟩ := eq_of_relabel? h
  have hasc : rows.Pairwise fun a b => compare a.1 b.1 = .lt := by
    refine pairwise_of_mapM (fun {r r' f f'} hlt hr hr' => ?_)
      (d.rows.ascending.sublist List.filter_sublist) hrows
    -- numbers keep the order, so the rows come in ascending order again
    exact Nat.compare_eq_lt.2 (OrdSet.number?_lt (renumberRow?_eq_some.1 hr).1
      (renumberRow?_eq_some.1 hr').1 hlt)
  rw [OrdMap.get?_ofList_of_pairwise hasc, mem_of_mapM hrows]
  refine ⟨?_, ?_⟩
  · rintro ⟨⟨q, row⟩, hmem, hrow⟩
    obtain ⟨hq, hrow'⟩ := renumberRow?_eq_some.1 hrow
    exact ⟨q, row, OrdMap.get?_eq_some.2 (List.mem_filter.1 hmem).1, hq, hrow'⟩
  · rintro ⟨q, row, hrow, hq, hrow'⟩
    have hkept : d.present.contains q := OrdSet.contains_iff.2 (OrdSet.mem_of_number? hq)
    exact ⟨(q, row), List.mem_filter.2 ⟨OrdMap.get?_eq_some.1 hrow, hkept⟩,
      renumberRow?_eq_some.2 ⟨hq, hrow'⟩⟩

/-- The row of a present state could be renumbered. -/
theorem exists_traverse?_row {q : σ} {row : OrdMap α σ} (hq : q ∈ d.present)
    (hrow : d.rows.get? q = some row) : ∃ row', row.traverse? d.present.number? = some row' := by
  obtain ⟨rows, hrows, -⟩ := eq_of_relabel? h
  have hmem : (q, row) ∈ d.rows.entries.filter fun row => d.present.contains row.1 :=
    List.mem_filter.2 ⟨OrdMap.get?_eq_some.1 hrow, OrdSet.contains_iff.2 hq⟩
  obtain ⟨⟨i, row'⟩, hrow'⟩ := Option.isSome_iff_exists.1 (isSome_of_mapM hrows hmem)
  exact ⟨row', (renumberRow?_eq_some.1 hrow').2⟩

/-! ## Runs -/

/-- An entry leads from a present state to a present one, for foreign symbols too. -/
theorem step_mem_present {q r : σ} {c : α} (hq : q ∈ d.present) (hr : d.step (some q) c = some r) :
    r ∈ d.present := by
  obtain ⟨row, hrow, hrow'⟩ := step_eq_some_iff_get?.1 hr
  obtain ⟨row', htraverse⟩ := exists_traverse?_row h hq hrow
  exact OrdSet.isSome_number?.1 (OrdMap.isSome_traverse?.1 (htraverse ▸ rfl) c r hrow')

/-- **A step is carried over.** -/
theorem step_relabel? {q : σ} {i : Nat} (hq : d.present.number? q = some i) (c : α) :
    e.step (some i) c = (d.step (some q) c).bind d.present.number? := by
  ext j
  rw [Option.bind_eq_some_iff]
  refine ⟨?_, ?_⟩
  · intro hj
    obtain ⟨row', hrow', hentry⟩ := step_eq_some_iff_get?.1 hj
    obtain ⟨p, row, hrow, hp, htraverse⟩ := (get?_relabel?_rows h).1 hrow'
    obtain rfl := OrdSet.number?_injective hq hp
    obtain ⟨r, hr, hj⟩ := (OrdMap.get?_traverse? htraverse).1 hentry
    have hstep : d.step (some q) c = some r := step_eq_some_iff_get?.2 ⟨row, hrow, hr⟩
    exact ⟨r, hstep, hj⟩
  · rintro ⟨r, hr, hj⟩
    obtain ⟨row, hrow, hentry⟩ := step_eq_some_iff_get?.1 hr
    obtain ⟨row', htraverse⟩ := exists_traverse?_row h (OrdSet.mem_of_number? hq) hrow
    have hrow' : e.rows.get? i = some row' := (get?_relabel?_rows h).2 ⟨q, row, hrow, hq, htraverse⟩
    have hentry' : row'.get? c = some j := (OrdMap.get?_traverse? htraverse).2 ⟨r, hentry, hj⟩
    exact step_eq_some_iff_get?.2 ⟨row', hrow', hentry'⟩

/-- The states after a word are present. -/
theorem run_mem_present {w : List α} {q : σ} (hq : d.run w = some q) : q ∈ d.present := by
  induction w using List.reverseRecOn generalizing q with
  | nil => exact start_mem_present hq
  | append_singleton w c ih =>
    obtain ⟨p, hp, hstep⟩ := run_concat_eq_some.1 hq
    exact step_mem_present h (ih hp) hstep

/-- **A word leads to the number of the state it led to.** -/
theorem run_relabel? (w : List α) : e.run w = (d.run w).bind d.present.number? := by
  induction w using List.reverseRecOn with
  | nil => exact start_relabel? h
  | append_singleton w c ih =>
    rw [run_concat, run_concat, ih]
    cases hp : d.run w with
    | none => rfl
    | some p =>
      obtain ⟨i, hi⟩ := OrdSet.exists_number? (run_mem_present h hp)
      rw [Option.bind_some, hi, step_relabel? h hi]

/-- **Relabelling keeps the language.** -/
theorem accepts_relabel? (w : List α) : e.accepts w = d.accepts w := by
  rw [accepts, accepts, run_relabel? h]
  cases hq : d.run w with
  | none => rfl
  | some q =>
    obtain ⟨i, hi⟩ := OrdSet.exists_number? (run_mem_present h hq)
    rw [Option.bind_some, hi, Bool.eq_iff_iff]
    simp only [acceptsAt, Option.any_some, OrdSet.contains_iff, mem_relabel?_accepting h,
      OrdSet.exists_mem_number?_iff hi]

/-- **Every state of a relabelled automaton is reachable.** -/
theorem mem_reachable_relabel? {i : Nat} (hi : i ∈ e.states) : some i ∈ e.reachable := by
  obtain ⟨q, hq⟩ := (mem_relabel?_states h).1 hi
  obtain ⟨w, hw, hrun⟩ := mem_reachable_iff.1 (mem_present.1 (OrdSet.mem_of_number? hq))
  refine mem_reachable_iff.2 ⟨w, ?_, ?_⟩
  · rwa [alphabet_relabel? h]
  · rw [run_relabel? h, hrun, Option.bind_some, hq]

/-- Relabelling keeps an automaton valid. -/
theorem valid_relabel? (hd : d.Valid) : e.Valid := by
  have hstates : ∀ {q : σ} {i : Nat}, d.present.number? q = some i → i ∈ e.states :=
    fun hq => (mem_relabel?_states h).2 ⟨_, hq⟩
  refine ⟨?_, ?_, ?_⟩
  · intro i hi
    rw [start_relabel? h] at hi
    obtain ⟨q, _, hq⟩ := Option.bind_eq_some_iff.1 hi
    exact hstates hq
  · rintro ⟨i, row'⟩ hrow'
    obtain ⟨q, row, hrow, hq, htraverse⟩ :=
      (get?_relabel?_rows h).1 (OrdMap.get?_eq_some.2 hrow')
    refine ⟨hstates hq, fun ⟨c, j⟩ hentry => ?_⟩
    obtain ⟨r, hr, hj⟩ := (OrdMap.get?_traverse? htraverse).1 (OrdMap.get?_eq_some.2 hentry)
    have hstep : d.step (some q) c = some r := step_eq_some_iff_get?.2 ⟨row, hrow, hr⟩
    exact ⟨alphabet_relabel? h ▸ (hd.step hstep).2.1, hstates hj⟩
  · intro i hi
    obtain ⟨q, _, hq⟩ := (mem_relabel?_accepting h).1 hi
    exact hstates hq

/-- Relabelling leaves no entry out. -/
theorem complete_relabel? (hd : d.Valid) (hc : d.Complete) : e.Complete := by
  intro i hi c hcmem
  rw [alphabet_relabel? h] at hcmem
  obtain ⟨q, hq⟩ := (mem_relabel?_states h).1 hi
  have hpresent : q ∈ d.present := OrdSet.mem_of_number? hq
  obtain ⟨w, _, hrun⟩ := mem_reachable_iff.1 (mem_present.1 hpresent)
  obtain ⟨r, _, hr⟩ := hc q (hd.run_mem hrun) c hcmem
  obtain ⟨j, hj⟩ := OrdSet.exists_number? (step_mem_present h hpresent hr)
  refine ⟨j, ?_, ?_⟩
  · exact (mem_relabel?_states h).2 ⟨r, hj⟩
  · rw [step_relabel? h hq, hr, Option.bind_some, hj]

end Parts

/-! ## Existence -/

/-- **There is a relabelled automaton exactly if entries lead from present states to present
states.** -/
theorem isSome_relabel?_iff : d.relabel?.isSome ↔
    ∀ q ∈ d.present, ∀ c r, d.step (some q) c = some r → r ∈ d.present := by
  refine ⟨fun h q hq c r hr => ?_, fun hclosed => ?_⟩
  · obtain ⟨e, he⟩ := Option.isSome_iff_exists.1 h
    exact step_mem_present he hq hr
  · have hrows : ((d.rows.entries.filter fun row => d.present.contains row.1).mapM
        fun row => renumberRow? d.present.number? row.1 row.2).isSome := by
      refine isSome_mapM fun ⟨q, row⟩ hmem => ?_
      obtain ⟨hrow, hq⟩ := List.mem_filter.1 hmem
      replace hq := OrdSet.contains_iff.1 hq
      have htraverse : (row.traverse? d.present.number?).isSome := by
        refine OrdMap.isSome_traverse?.2 fun c r hr => OrdSet.isSome_number?.2 ?_
        exact hclosed q hq c r
          (step_eq_some_iff_get?.2 ⟨row, OrdMap.get?_eq_some.2 hrow, hr⟩)
      obtain ⟨i, hi⟩ := OrdSet.exists_number? hq
      obtain ⟨row', hrow'⟩ := Option.isSome_iff_exists.1 htraverse
      exact Option.isSome_iff_exists.2 ⟨_, renumberRow?_eq_some.2 ⟨hi, hrow'⟩⟩
    obtain ⟨rows, hrows⟩ := Option.isSome_iff_exists.1 hrows
    exact Option.isSome_iff_exists.2 ⟨_, Option.bind_eq_some_iff.2 ⟨rows, hrows, rfl⟩⟩

/-- **A valid automaton can be relabelled**: its entries are for symbols of the alphabet. -/
theorem exists_relabel? (hd : d.Valid) : ∃ e, d.relabel? = some e := by
  refine Option.isSome_iff_exists.1 (isSome_relabel?_iff.2 fun q hq c r hr => ?_)
  rw [mem_present, ← hr]
  exact step_mem_reachable (mem_present.1 hq) (hd.step hr).2.1

end FiniteAutomata.Dfa
