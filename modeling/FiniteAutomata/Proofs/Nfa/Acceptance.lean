import FiniteAutomata.Nfa.Path
import FiniteAutomata.Nfa.Run

/-!
# Proofs/Nfa/Acceptance — a run holds the ends of all paths

The states after a word are the states to which a path from the start spells it (`mem_run`), so the
automaton accepts what some path recognizes (`accepts_iff_recognizes`).  What is proved of the
constructions on automata is proved along paths: by `Path.edgeInduction`, which treats silent edges
and the others alike, or by a simulation of one automaton in another (`Path.simulate`).
-/

namespace FiniteAutomata.Nfa

variable {σ τ α : Type} [Ordered σ] [Ordered τ] [Ordered α]

/-! ## Along a path -/

/-- An edge in front of a path spells its label first. -/
theorem Path.edge {n : Nfa σ α} {p q r : σ} {a : Option α} {w : List α}
    (ht : ⟨p, q, a⟩ ∈ n.transitions) (h : n.Path q w r) : n.Path p (a.toList ++ w) r := by
  cases a with
  | none => exact .silent ht h
  | some c => exact .reading ht h

/-- Induction along a path to a fixed end, one edge in front at a time. -/
@[elab_as_elim] theorem Path.edgeInduction {n : Nfa σ α} {r : σ}
    {motive : (p : σ) → (w : List α) → n.Path p w r → Prop}
    {p : σ} {w : List α} (h : n.Path p w r) (nil : motive r [] (.nil r))
    (edge : ∀ {p q : σ} {a : Option α} {w : List α} (ht : ⟨p, q, a⟩ ∈ n.transitions)
      (h : n.Path q w r), motive q w h → motive p (a.toList ++ w) (.edge ht h)) :
    motive p w h := by
  induction h with
  | nil => exact nil
  | silent ht h ih => exact edge ht h (ih nil edge)
  | reading ht h ih => exact edge ht h (ih nil edge)

/-- **A simulation carries paths**: if related states have related edges, a path from a state is
matched by one from each state related to it. -/
theorem Path.simulate {n : Nfa σ α} {m : Nfa τ α} {R : σ → τ → Prop}
    (hedge : ∀ {p q : σ} {a : Option α} {i : τ}, ⟨p, q, a⟩ ∈ n.transitions → R p i →
      ∃ j, R q j ∧ ⟨i, j, a⟩ ∈ m.transitions)
    {p q : σ} {w : List α} (h : n.Path p w q) {i : τ} (hi : R p i) :
    ∃ j, R q j ∧ m.Path i w j := by
  induction h using Path.edgeInduction generalizing i with
  | nil => exact ⟨i, hi, .nil i⟩
  | edge ht _ ih =>
    obtain ⟨j, hj, htj⟩ := hedge ht hi
    obtain ⟨k, hk, hpath⟩ := ih hj
    exact ⟨k, hk, .edge htj hpath⟩

/-- The first symbol of a word is read after a silent path. -/
theorem path_cons {n : Nfa σ α} {p r : σ} {c : α} {w : List α} :
    n.Path p (c :: w) r ↔
      ∃ q q', n.Path p [] q ∧ .reading q q' c ∈ n.transitions ∧ n.Path q' w r := by
  refine ⟨?_, ?_⟩
  · intro h
    generalize hv : c :: w = v at h
    induction h with
    | nil => cases hv
    | silent ht _ ih =>
      obtain ⟨q, q', hq, htq, hpath⟩ := ih hv
      exact ⟨q, q', .silent ht hq, htq, hpath⟩
    | reading ht h _ =>
      obtain ⟨rfl, rfl⟩ := List.cons.inj hv
      exact ⟨_, _, .nil _, ht, h⟩
  · rintro ⟨q, q', hq, ht, hpath⟩
    exact hq.append (.reading ht hpath)

/-! ## Runs -/

/-- The silent closure holds the ends of the silent paths. -/
theorem mem_closure {n : Nfa σ α} {s : OrdSet σ} {q : σ} :
    q ∈ n.closure s ↔ ∃ p ∈ s, n.Path p [] q := by
  refine ⟨?_, ?_⟩
  · have hstart : ∀ p ∈ s, ∃ p' ∈ s, n.Path p' [] p := fun p hp => ⟨p, hp, .nil p⟩
    have hnext : ∀ p, (∃ p' ∈ s, n.Path p' [] p) →
        ∀ q ∈ (n.successors Option.isNone).next p, ∃ p' ∈ s, n.Path p' [] q := by
      rintro p ⟨p', hp', h⟩ q hq
      obtain ⟨a, ha, ht⟩ := mem_next.1 hq
      rw [Option.isNone_iff_eq_none.1 ha] at ht
      exact ⟨p', hp', h.append (.silent ht (.nil q))⟩
    exact Successors.closure_induction hstart hnext q
  · rintro ⟨p, hp, h⟩
    replace hp : p ∈ n.closure s := Successors.subset_closure _ _ p hp
    generalize hw : ([] : List α) = w at h
    induction h with
    | nil => exact hp
    | silent ht _ ih =>
      have hq := Successors.closure_closed _ _ hp (mem_next.2 ⟨none, rfl, ht⟩)
      exact ih hq hw
    | reading => cases hw

/-- Reading a word from a closed set follows the paths from its elements. -/
theorem mem_foldl_step {n : Nfa σ α} {q : σ} {w : List α} {s : OrdSet σ} :
    q ∈ w.foldl n.step (n.closure s) ↔ ∃ p ∈ s, n.Path p w q := by
  induction w generalizing s with
  | nil => exact mem_closure
  | cons c w ih =>
    rw [List.foldl_cons, step, ih]
    refine ⟨?_, ?_⟩
    · rintro ⟨q', hq', hpath⟩
      obtain ⟨q, hq, ht⟩ := mem_move.1 hq'
      obtain ⟨p, hp, hpq⟩ := mem_closure.1 hq
      exact ⟨p, hp, path_cons.2 ⟨q, q', hpq, ht, hpath⟩⟩
    · rintro ⟨p, hp, hpath⟩
      obtain ⟨q, q', hpq, ht, hpath⟩ := path_cons.1 hpath
      have hq : q ∈ n.closure s := mem_closure.2 ⟨p, hp, hpq⟩
      exact ⟨q', mem_move.2 ⟨q, hq, ht⟩, hpath⟩

/-- **The states after a word are the ends of the paths that spell it.** -/
theorem mem_run {n : Nfa σ α} {w : List α} {q : σ} : q ∈ n.run w ↔ n.Path n.start w q := by
  rw [run, begin, mem_foldl_step]
  simp

/-- **A word is accepted exactly if some path recognizes it.** -/
theorem accepts_iff_recognizes {n : Nfa σ α} {w : List α} : n.accepts w ↔ n.Recognizes w := by
  rw [accepts, OrdSet.meets_iff]
  refine ⟨?_, ?_⟩
  · rintro ⟨q, hq, hacc⟩
    exact ⟨q, hacc, mem_run.1 hq⟩
  · rintro ⟨q, hacc, hpath⟩
    exact ⟨q, mem_run.2 hpath, hacc⟩

end FiniteAutomata.Nfa
