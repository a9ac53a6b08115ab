import FiniteAutomata.Proofs.Dfa.Relabelling
import FiniteAutomata.Proofs.Dfa.Tabulation
import FiniteAutomata.Proofs.Order.Matching

/-!
# Proofs/Dfa/Bisimulation — deterministic automata that differ in names only

A bisimulation relates the starts of two automata, and related states have related rows and are
accepting alike; the dead state, which has no name, is related to itself.  As for nondeterministic
automata, the states that are present are matched, so if the order is kept both automata are
relabelled into the same one, or neither is (`Bisimulation.relabel?_eq`).  Rows are compared as
rows: one without entries is not the same as none.
-/

namespace FiniteAutomata.Dfa

variable {σ τ α : Type} [Ordered σ] [Ordered τ] [Ordered α]

/-- `Bisimulation R a b`: related states of the two automata have related rows and are accepting
alike, and the starts are related or both dead. -/
structure Bisimulation (R : σ → τ → Prop) (a : Dfa σ α) (b : Dfa τ α) : Prop where
  alphabet_eq : a.alphabet = b.alphabet
  start : Option.Rel R a.start b.start
  rows : ∀ {p : σ} {i : τ}, R p i →
    Option.Rel (fun row row' => ∀ c, Option.Rel R (row.get? c) (row'.get? c))
      (a.rows.get? p) (b.rows.get? i)
  accepting_iff : ∀ {p : σ} {i : τ}, R p i → (p ∈ a.accepting ↔ i ∈ b.accepting)

namespace Bisimulation

variable {R : σ → τ → Prop} {a : Dfa σ α} {b : Dfa τ α}

theorem flip (h : Bisimulation R a b) : Bisimulation (fun i p => R p i) b a where
  alphabet_eq := h.alphabet_eq.symm
  start := h.start.flip
  rows hpi := (h.rows hpi).flip.imp fun hrow c => (hrow c).flip
  accepting_iff hpi := (h.accepting_iff hpi).symm

/-! ## Steps -/

/-- A symbol leads related states to related ones. -/
theorem step (h : Bisimulation R a b) {p : Option σ} {i : Option τ} (hpi : Option.Rel R p i) (c : α) :
    Option.Rel R (a.step p c) (b.step i c) := by
  cases hpi with
  | none => exact .none
  | some hpi => exact (h.rows hpi).bind fun hrow => hrow c

theorem acceptsAt_eq (h : Bisimulation R a b) {p : Option σ} {i : Option τ}
    (hpi : Option.Rel R p i) : a.acceptsAt p = b.acceptsAt i := by
  cases hpi with
  | none => rfl
  | some hpi =>
    rw [Bool.eq_iff_iff]
    simpa [acceptsAt] using h.accepting_iff hpi

theorem exists_next (h : Bisimulation R a b) {p : Option σ} {i : Option τ}
    (hpi : Option.Rel R p i) :
    ∀ q ∈ a.successors.next p, ∃ j ∈ b.successors.next i, Option.Rel R q j := by
  intro q hq
  obtain ⟨c, hc, rfl⟩ := List.mem_map.1 hq
  have hc' : c ∈ b.alphabet.toList := h.alphabet_eq ▸ hc
  exact ⟨b.step i c, List.mem_map_of_mem hc', h.step hpi c⟩

theorem exists_mem_reachable (h : Bisimulation R a b) {p : Option σ} (hp : p ∈ a.reachable) :
    ∃ i ∈ b.reachable, Option.Rel R p i := by
  have hstart : ∀ p ∈ ({a.start} : OrdSet (Option σ)), ∃ i ∈ ({b.start} : OrdSet (Option τ)),
      Option.Rel R p i := by
    simpa using h.start
  exact Successors.exists_mem_closure hstart h.exists_next p hp

theorem exists_mem_present (h : Bisimulation R a b) {p : σ} (hp : p ∈ a.present) :
    ∃ i ∈ b.present, R p i := by
  obtain ⟨i, hi, hpi⟩ := h.exists_mem_reachable (mem_present.1 hp)
  cases hpi with
  | some hpi => exact ⟨_, mem_present.2 hi, hpi⟩

/-- **The present states are matched.** -/
theorem matched_present (h : Bisimulation R a b) : OrdSet.Matched R a.present b.present :=
  ⟨fun _ => h.exists_mem_present, fun _ => h.flip.exists_mem_present⟩

/-! ## Relabelling -/

section Relabel

variable (h : Bisimulation R a b) (hR : KeepsOrder R)

include h hR

theorem mem_present_iff {p : σ} {i : τ} (hpi : R p i) : p ∈ a.present ↔ i ∈ b.present := by
  rw [← OrdSet.isSome_number?, ← OrdSet.isSome_number?, hR.number?_eq h.matched_present hpi]

theorem bind_number?_eq {p : Option σ} {i : Option τ} (hpi : Option.Rel R p i) :
    p.bind a.present.number? = i.bind b.present.number? := by
  cases hpi with
  | none => rfl
  | some hpi => exact hR.number?_eq h.matched_present hpi

/-- If the entries of one automaton stay among its present states, so do those of the other. -/
theorem isSome_relabel?_of_isSome (ha : a.relabel?.isSome) : b.relabel?.isSome := by
  refine isSome_relabel?_iff.2 fun i hi c j hj => ?_
  obtain ⟨p, hp, hpi⟩ := h.matched_present.2 i hi
  have hstep : Option.Rel R (a.step (some p) c) (some j) := hj ▸ h.step (.some hpi) c
  obtain ⟨q, hq, hqj⟩ := hstep.flip.exists_eq_some
  exact (h.mem_present_iff hR hqj).1 (isSome_relabel?_iff.1 ha p hp c q hq)

section Parts

variable {e e' : Dfa Nat α} (ha : a.relabel? = some e) (hb : b.relabel? = some e')

include ha hb

theorem mem_accepting_of_mem {k : Nat} (hk : k ∈ e.accepting) : k ∈ e'.accepting := by
  obtain ⟨p, hp, hpk⟩ := (mem_relabel?_accepting ha).1 hk
  obtain ⟨i, hpi, hik⟩ := hR.exists_number?_eq h.matched_present hpk
  exact (mem_relabel?_accepting hb).2 ⟨i, (h.accepting_iff hpi).1 hp, hik⟩

/-- A number that has a row has the same one in the other relabelled automaton. -/
theorem get?_rows_of_get?_rows {k : Nat} {row : OrdMap α Nat} (hk : e.rows.get? k = some row) :
    e'.rows.get? k = some row := by
  obtain ⟨p, rowp, hp, hpk, hrow⟩ := (get?_relabel?_rows ha).1 hk
  obtain ⟨i, hpi, hik⟩ := hR.exists_number?_eq h.matched_present hpk
  obtain ⟨rowi, hrowi, hentries⟩ := (hp ▸ h.rows hpi).exists_eq_some
  obtain ⟨row', hrow'⟩ := exists_traverse?_row hb (OrdSet.mem_of_number? hik) hrowi
  -- related targets have the same number, so the entries agree
  have hsame : row' = row := by
    refine OrdMap.ext fun c => ?_
    rw [OrdMap.get?_traverse?_eq_bind hrow, OrdMap.get?_traverse?_eq_bind hrow',
      h.bind_number?_eq hR (hentries c)]
  exact (get?_relabel?_rows hb).2 ⟨i, rowi, hrowi, hik, hsame ▸ hrow'⟩

end Parts

theorem relabelled_eq {e e' : Dfa Nat α} (ha : a.relabel? = some e) (hb : b.relabel? = some e') :
    e = e' := by
  refine Dfa.ext ?_ ?_ ?_ (OrdMap.ext fun k => Option.ext fun row => ?_)
    (OrdSet.ext fun k => ?_)
  · rw [states_relabel? ha, states_relabel? hb, hR.size_eq h.matched_present]
  · rw [alphabet_relabel? ha, alphabet_relabel? hb, h.alphabet_eq]
  · rw [start_relabel? ha, start_relabel? hb, h.bind_number?_eq hR h.start]
  · exact ⟨h.get?_rows_of_get?_rows hR ha hb, h.flip.get?_rows_of_get?_rows hR.flip hb ha⟩
  · exact ⟨h.mem_accepting_of_mem hR ha hb, h.flip.mem_accepting_of_mem hR.flip hb ha⟩

theorem eq_some_of_relabel? {e : Dfa Nat α} (ha : a.relabel? = some e) : b.relabel? = some e := by
  have hisSome : a.relabel?.isSome := Option.isSome_iff_exists.2 ⟨e, ha⟩
  obtain ⟨e', hb⟩ := Option.isSome_iff_exists.1 (h.isSome_relabel?_of_isSome hR hisSome)
  rw [hb, h.relabelled_eq hR ha hb]

/-- **Automata that differ in names only are relabelled into one**, or neither can be. -/
theorem relabel?_eq : a.relabel? = b.relabel? :=
  Option.ext fun _ => ⟨h.eq_some_of_relabel? hR, h.flip.eq_some_of_relabel? hR.flip⟩

end Relabel

end Bisimulation

/-! ## Automata that tabulate a function -/

/-- **Where both tabulate a function** the functions are all there is to relate, and which of the
related elements are states: the others have no rows. -/
theorem Tabulates.bisimulation {R : σ → τ → Prop} {a : Dfa σ α} {b : Dfa τ α} {next : σ → α → σ}
    {next' : τ → α → τ} (ha : a.Tabulates next) (hb : b.Tabulates next')
    (halphabet : a.alphabet = b.alphabet) (hstart : Option.Rel R a.start b.start)
    (hstates : ∀ {p i}, R p i → (p ∈ a.states ↔ i ∈ b.states))
    (hnext : ∀ {p i}, R p i → ∀ c, R (next p c) (next' i c))
    (haccepting : ∀ {p i}, R p i → (p ∈ a.accepting ↔ i ∈ b.accepting)) :
    Bisimulation R a b where
  alphabet_eq := halphabet
  start := hstart
  rows {p i} hpi := by
    have hstates := hstates hpi
    rw [ha, hb, OrdMap.get?_ofKeys, OrdMap.get?_ofKeys]
    by_cases hp : p ∈ a.states
    · rw [if_pos hp, if_pos (hstates.1 hp)]
      refine .some fun c => ?_
      rw [OrdMap.get?_ofKeys, OrdMap.get?_ofKeys, ← halphabet]
      by_cases hc : c ∈ a.alphabet
      · rw [if_pos hc, if_pos hc]
        exact .some (hnext hpi c)
      · rw [if_neg hc, if_neg hc]
        exact .none
    · rw [if_neg hp, if_neg fun hi => hp (hstates.2 hi)]
      exact .none
  accepting_iff := haccepting

/-! ## The relabelled automaton -/

omit [Ordered σ] [Ordered τ] in
/-- The values of a table are related to their replacements. -/
theorem rel_get?_traverse? {g : σ → Option τ} {m : OrdMap α σ} {m' : OrdMap α τ}
    (h : m.traverse? g = some m') (c : α) :
    Option.Rel (fun v v' => g v = some v') (m.get? c) (m'.get? c) := by
  have hall := OrdMap.isSome_traverse?.1 (Option.isSome_iff_exists.2 ⟨m', h⟩)
  rw [OrdMap.get?_traverse?_eq_bind h]
  cases hv : m.get? c with
  | none => exact .none
  | some v =>
    obtain ⟨v', hv'⟩ := Option.isSome_iff_exists.1 (hall c v hv)
    rw [Option.bind_some, hv']
    exact .some hv'

/-- **Giving every present state its number is a bisimulation.** -/
theorem bisimulation_relabel? {d : Dfa σ α} {e : Dfa Nat α} (h : d.relabel? = some e) :
    Bisimulation (fun p i => d.present.number? p = some i) d e where
  alphabet_eq := (alphabet_relabel? h).symm
  start := by
    rw [start_relabel? h]
    cases hstart : d.start with
    | none => exact .none
    | some p =>
      obtain ⟨i, hi⟩ := OrdSet.exists_number? (start_mem_present hstart)
      rw [Option.bind_some, hi]
      exact .some hi
  rows {p i} hpi := by
    cases hrow : d.rows.get? p with
    | none =>
      cases hrow' : e.rows.get? i with
      | none => exact .none
      | some row' =>
        -- it would be the row of another state with this number
        obtain ⟨q, row, hq, hqi, -⟩ := (get?_relabel?_rows h).1 hrow'
        obtain rfl := OrdSet.number?_injective hqi hpi
        exact nomatch hrow.symm.trans hq
    | some row =>
      obtain ⟨row', hrow'⟩ := exists_traverse?_row h (OrdSet.mem_of_number? hpi) hrow
      rw [(get?_relabel?_rows h).2 ⟨p, row, hrow, hpi, hrow'⟩]
      exact .some (rel_get?_traverse? hrow')
  accepting_iff hpi := by rw [mem_relabel?_accepting h, OrdSet.exists_mem_number?_iff hpi]

end FiniteAutomata.Dfa
