import FiniteAutomata.Proofs.Dfa.Numbering
import FiniteAutomata.Proofs.Dfa.SetOperations
import FiniteAutomata.Proofs.Nfa.Determinization

/-!
# Proofs/Automata/Embedding — a deterministic automaton among the nondeterministic ones

Seen as a nondeterministic one, a deterministic automaton holds one state at a time, the state its
own run is in.  Its dead state has two images: at the start it is the state `none`, which no edge
leaves, and where an entry is missing it is the empty set (`mem_run_toNfa`).  Neither accepts, so
the language stays the same (`toNfa_keeps_language`), and of all the sets of states that the subset
construction makes of it only these are ever reached (`reachable_toDfa_toNfa`).
-/

namespace FiniteAutomata.Dfa

variable {σ α : Type} [Ordered σ] [Ordered α] {d : Dfa σ α}

/-! ## One state at a time -/

/-- No edge is silent, so a set of states is closed as it is. -/
theorem closure_toNfa (s : OrdSet (Option σ)) : d.toNfa.closure s = s := by
  ext q
  rw [Nfa.mem_closure]
  constructor
  · rintro ⟨p, hp, hpath⟩
    cases hpath with
    | nil => exact hp
    | silent ht _ =>
      obtain ⟨_, _, _, -, hreading⟩ := mem_toNfa_transitions.1 ht
      exact nomatch congrArg Transition.label hreading
  · intro hq
    exact ⟨q, hq, .nil q⟩

/-- A step follows the entries of the states that are held. -/
theorem mem_step_toNfa {s : OrdSet (Option σ)} {c : α} {q : Option σ} :
    q ∈ d.toNfa.step s c ↔ ∃ p r, some p ∈ s ∧ d.step (some p) c = some r ∧ q = some r := by
  rw [Nfa.step, closure_toNfa, Nfa.mem_move]
  constructor
  · rintro ⟨_, hp, ht⟩
    obtain ⟨p, c, r, hstep, hreading⟩ := mem_toNfa_transitions.1 ht
    obtain ⟨rfl, rfl, hc⟩ := Transition.mk.inj hreading
    obtain rfl := Option.some.inj hc
    exact ⟨p, r, hp, hstep, rfl⟩
  · rintro ⟨p, r, hp, hstep, rfl⟩
    exact ⟨some p, hp, mem_toNfa_transitions.2 ⟨p, c, r, hstep, rfl⟩⟩

/-- **The set of states after a word** holds the state of the deterministic run, and the dead state
only if nothing has been read yet. -/
theorem mem_run_toNfa {w : List α} {q : Option σ} :
    q ∈ d.toNfa.run w ↔ d.run w = q ∧ (w = [] ∨ q.isSome) := by
  induction w using List.reverseRecOn generalizing q with
  | nil =>
    -- the start is held whatever it is; no edge leads to the dead state later on
    rw [Nfa.run_nil, Nfa.begin, closure_toNfa, OrdSet.mem_singleton]
    exact ⟨fun h => ⟨h.symm, .inl rfl⟩, fun h => h.1.symm⟩
  | append_singleton w c ih =>
    rw [Nfa.run_concat, mem_step_toNfa]
    constructor
    · rintro ⟨p, r, hp, hstep, rfl⟩
      exact ⟨run_concat_eq_some.2 ⟨p, (ih.1 hp).1, hstep⟩, .inr rfl⟩
    · rintro ⟨hrun, hnil | hsome⟩
      · simp at hnil
      · obtain ⟨r, rfl⟩ := Option.isSome_iff_exists.1 hsome
        obtain ⟨p, hp, hstep⟩ := run_concat_eq_some.1 hrun
        exact ⟨p, r, ih.2 ⟨hp, .inr rfl⟩, hstep, rfl⟩

/-- What stands for the state of a run that started alive: the state alone, or nothing if the run
has died. -/
def standIn : Option σ → OrdSet (Option σ)
  | none => ∅
  | some q => {some q}

theorem mem_standIn {p : Option σ} : ∀ {q : Option σ}, p ∈ standIn q ↔ q = p ∧ p.isSome
  | none => by
    refine iff_of_false OrdSet.not_mem_empty ?_
    rintro ⟨rfl, hsome⟩
    exact nomatch hsome
  | some q => by
    rw [standIn, OrdSet.mem_singleton, eq_comm]
    exact ⟨fun h => ⟨h, h ▸ rfl⟩, And.left⟩

/-- **With a start** it is the stand-in of the run that is held. -/
theorem run_toNfa (hstart : d.start.isSome) (w : List α) :
    d.toNfa.run w = standIn (d.run w) := by
  ext q
  rw [mem_run_toNfa, mem_standIn]
  refine and_congr_right ?_
  rintro rfl
  refine or_iff_right_of_imp ?_
  rintro rfl
  exact hstart

/-- **Without a start** the dead state is held, until the first symbol is read. -/
theorem run_toNfa_of_dead (hstart : d.start = none) {w : List α} (hw : w ≠ []) :
    d.toNfa.run w = ∅ := by
  ext q
  rw [mem_run_toNfa, run_eq_none_of_start hstart]
  refine iff_of_false ?_ OrdSet.not_mem_empty
  rintro ⟨rfl, hnil | hsome⟩
  · exact hw hnil
  · exact nomatch hsome

/-! ## The language -/

theorem accepts_toNfa (d : Dfa σ α) (w : List α) : d.toNfa.accepts w = d.accepts w := by
  rw [Bool.eq_iff_iff, Nfa.accepts, OrdSet.meets_iff, accepts_iff_exists]
  constructor
  · rintro ⟨_, hrun, hacc⟩
    obtain ⟨q, hq, rfl⟩ := OrdSet.mem_map.1 hacc
    exact ⟨q, (mem_run_toNfa.1 hrun).1, hq⟩
  · rintro ⟨q, hrun, hq⟩
    exact ⟨some q, mem_run_toNfa.2 ⟨hrun, .inr rfl⟩, OrdSet.mem_map.2 ⟨q, hq, rfl⟩⟩

/-- **Seen as a nondeterministic automaton, a deterministic one of any kind keeps its language**,
whatever the symbols of the words.  After a word it holds the state of the deterministic run if that
is alive, and the dead state only before the first symbol; and it is valid if the deterministic
automaton is. -/
theorem toNfa_keeps_language (d : Dfa σ α) :
    (∀ w, d.toNfa.accepts w = d.accepts w) ∧
      (∀ w q, q ∈ d.toNfa.run w ↔ d.run w = q ∧ (w = [] ∨ q.isSome)) ∧
      (d.Valid → d.toNfa.Valid) :=
  ⟨d.accepts_toNfa, fun _ _ => mem_run_toNfa, valid_toNfa⟩

/-- An automaton that passes through states that are not listed, by a foreign symbol, and one that
has no start at all. -/
theorem toNfa_of_unlisted_and_empty :
    (¬(unlisted 9).Valid ∧ (unlisted 9).toNfa.accepts ['b', 'a', 'a']) ∧
      (empty (.ofList ['a'])).Valid ∧ (empty (.ofList ['a'])).toNfa.Valid ∧
      ∀ w, (empty (.ofList ['a'])).toNfa.accepts w = false := by
  obtain ⟨hwords, -, -⟩ := toNfa_keeps_language (unlisted 9)
  obtain ⟨hnothing, -, hvalid⟩ := toNfa_keeps_language (empty (.ofList ['a']))
  have hempty : (empty (.ofList ['a'])).Valid := valid_empty _
  refine ⟨⟨by decide, ?_⟩, hempty, hvalid hempty, fun w => (hnothing w).trans (accepts_empty _ w)⟩
  rw [hwords]
  decide

/-! ## The sets of states that are reached -/

section Determinized

variable (hd : d.Valid)

include hd

theorem reachable_toDfa_toNfa (hstart : d.start.isSome) :
    d.toNfa.toDfa.reachable = d.reachable.map fun q => some (standIn q) := by
  refine reachable_eq_map rfl fun w hw => ?_
  rw [Nfa.run_toDfa (valid_toNfa hd) hw, run_toNfa hstart]

theorem mem_reachable_toDfa_toNfa_of_dead (hstart : d.start = none)
    {s : Option (OrdSet (Option σ))} : s ∈ d.toNfa.toDfa.reachable ↔
      some {none} = s ∨ (∃ c, c ∈ d.alphabet) ∧ some ∅ = s := by
  have hbegin : d.toNfa.run [] = {none} := by
    rw [Nfa.run_nil, Nfa.begin, closure_toNfa, ← hstart]
    rfl
  rw [Nfa.mem_reachable_toDfa (valid_toNfa hd)]
  constructor
  · rintro ⟨w, hw, rfl⟩
    obtain rfl | hne := eq_or_ne w []
    · exact .inl (congrArg some hbegin.symm)
    · obtain ⟨c, hc⟩ := List.exists_mem_of_ne_nil w hne
      exact .inr ⟨⟨c, hw c hc⟩, congrArg some (run_toNfa_of_dead hstart hne).symm⟩
  · rintro (rfl | ⟨⟨c, hc⟩, rfl⟩)
    · exact ⟨[], over_nil _, congrArg some hbegin⟩
    · have hnothing := run_toNfa_of_dead hstart (List.cons_ne_nil c [])
      exact ⟨[c], over_concat.2 ⟨over_nil _, hc⟩, congrArg some hnothing⟩

/-- **Determinizing gives the states that are reached back.**  Of all the sets of states of a valid
automaton with a start, only the singletons of the states that it reaches are reached, and the empty
set if it can die.  Without a start only the dead state is, alone, and the empty set if there is a
symbol to read.  The result itself never dies. -/
theorem determinized_view_reaches :
    (d.start.isSome → ∀ s, s ∈ d.toNfa.toDfa.reachable ↔
        (∃ q, some q ∈ d.reachable ∧ some {some q} = s) ∨ none ∈ d.reachable ∧ some ∅ = s) ∧
      (d.start = none → ∀ s, s ∈ d.toNfa.toDfa.reachable ↔
        some {none} = s ∨ (∃ c, c ∈ d.alphabet) ∧ some ∅ = s) ∧
      none ∉ d.toNfa.toDfa.reachable := by
  refine ⟨fun hstart s => ?_, fun hstart s => mem_reachable_toDfa_toNfa_of_dead hd hstart, ?_⟩
  · rw [reachable_toDfa_toNfa hd hstart, OrdSet.mem_map, Option.exists, or_comm]
    rfl
  · rw [Nfa.mem_reachable_toDfa (valid_toNfa hd)]
    rintro ⟨_, -, h⟩
    exact Option.some_ne_none _ h

end Determinized

/-- It reads `a` any number of times and then `b`; after that it dies, and nothing leads to `5`. -/
def trailing : Dfa Nat Char where
  states := .ofList [0, 1, 5]
  alphabet := .ofList ['a', 'b']
  start := some 0
  rows := .ofList [(0, .ofList [('a', 0), ('b', 1)]), (5, .ofList [('a', 1)])]
  accepting := {1}

/-- Of its sixteen sets of states three are reached, and of the two sets of an automaton without
states both. -/
theorem determinized_view_of_trailing :
    (trailing.Valid ∧ trailing.start.isSome ∧ trailing.toNfa.toDfa.states.size = 16 ∧
      some {some 1} ∈ trailing.toNfa.toDfa.reachable ∧ some ∅ ∈ trailing.toNfa.toDfa.reachable ∧
      some {some 5} ∉ trailing.toNfa.toDfa.reachable) ∧
    (empty (.ofList ['a'])).Valid ∧ (empty (.ofList ['a'])).start = none ∧
      some {none} ∈ (empty (.ofList ['a'])).toNfa.toDfa.reachable ∧
      some ∅ ∈ (empty (.ofList ['a'])).toNfa.toDfa.reachable := by
  have hvalid : trailing.Valid := by decide
  have hempty : (empty (.ofList ['a'])).Valid := valid_empty _
  have hreachable : trailing.reachable = .ofList [none, some 0, some 1] := by decide +kernel
  have hsets := (determinized_view_reaches hvalid).1 rfl
  have hdead := (determinized_view_reaches hempty).2.1 rfl
  rw [hreachable] at hsets
  refine ⟨⟨hvalid, rfl, by decide +kernel, (hsets _).2 (.inl ⟨1, by decide, rfl⟩),
    (hsets _).2 (.inr ⟨by decide, rfl⟩), ?_⟩, hempty, rfl, (hdead _).2 (.inl rfl),
    (hdead _).2 (.inr ⟨⟨'a', by decide⟩, rfl⟩)⟩
  rw [hsets]
  rintro (⟨q, hq, hsame⟩ | ⟨-, hsame⟩)
  · have hfive : some 5 ∈ ({some q} : OrdSet (Option Nat)) := by
      rw [Option.some.inj hsame]
      exact OrdSet.mem_singleton.2 rfl
    rw [← OrdSet.mem_singleton.1 hfive] at hq
    exact absurd hq (by decide)
  · exact absurd hsame (by decide)

end FiniteAutomata.Dfa
