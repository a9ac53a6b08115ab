import FiniteAutomata.Dfa.Reachable
import Mathlib.Data.List.Induction

/-!
# Proofs/Dfa/Words — states as the ends of words

The reachable states are the ends of the runs over the alphabet (`mem_reachable_iff`), so emptiness
and fullness are statements about words (`isEmpty_iff`, `isFull_iff`).  A valid automaton has
entries for symbols of its alphabet only and stays among its states; a foreign symbol leads it into
the dead state for good (`Valid.run_eq_none`), so that an empty one rejects every word whatsoever
(`emptiness_and_fullness`).
-/

namespace FiniteAutomata

variable {σ τ α : Type} [Ordered σ] [Ordered τ] [Ordered α]

/-- All symbols of the word are in the alphabet. -/
def Over (alphabet : OrdSet α) (w : List α) : Prop := ∀ c ∈ w, c ∈ alphabet

theorem over_nil (alphabet : OrdSet α) : Over alphabet [] := fun _ hc => nomatch hc

@[simp] theorem over_concat {alphabet : OrdSet α} {w : List α} {c : α} :
    Over alphabet (w ++ [c]) ↔ Over alphabet w ∧ c ∈ alphabet := by
  simp only [Over, List.mem_append, List.mem_singleton, or_imp, forall_and, forall_eq]

namespace Dfa

variable {d : Dfa σ α}

/-- A run ends in a state only if it has been in states before. -/
theorem run_concat_eq_some {w : List α} {c : α} {r : σ} : d.run (w ++ [c]) = some r ↔
    ∃ q, d.run w = some q ∧ d.step (some q) c = some r := by
  rw [run_concat]
  cases d.run w with
  | none => simp
  | some q => simp

/-- Without a start a run never leaves the dead state. -/
theorem run_eq_none_of_start (h : d.start = none) (w : List α) : d.run w = none := by
  induction w using List.reverseRecOn with
  | nil => exact h
  | append_singleton w c ih => rw [run_concat, ih, step_dead]

/-! ## Reachable states -/

/-- **The reachable states are the ends of the words over the alphabet.** -/
theorem mem_reachable_iff {q : Option σ} :
    q ∈ d.reachable ↔ ∃ w, Over d.alphabet w ∧ d.run w = q := by
  refine ⟨?_, ?_⟩
  · intro h
    have hstart : ∀ p ∈ ({d.start} : OrdSet (Option σ)), ∃ w, Over d.alphabet w ∧ d.run w = p :=
      fun p hp => ⟨[], over_nil _, (OrdSet.mem_singleton.1 hp).symm⟩
    have hnext : ∀ p, (∃ w, Over d.alphabet w ∧ d.run w = p) →
        ∀ r ∈ d.successors.next p, ∃ w, Over d.alphabet w ∧ d.run w = r := by
      intro p ⟨w, hw, hp⟩ r hr
      obtain ⟨c, hc, rfl⟩ := List.mem_map.1 hr
      exact ⟨w ++ [c], over_concat.2 ⟨hw, hc⟩, by rw [run_concat, hp]⟩
    exact Successors.closure_induction hstart hnext q h
  · intro h
    obtain ⟨w, hw, rfl⟩ := h
    induction w using List.reverseRecOn with
    | nil => exact d.start_mem_reachable
    | append_singleton w c ih =>
      obtain ⟨hw, hc⟩ := over_concat.1 hw
      rw [run_concat]
      exact step_mem_reachable (ih hw) hc

/-- **What follows a run over the alphabet** reaches the images of what the run reaches. -/
theorem reachable_eq_map {e : Dfa τ α} {f : Option σ → Option τ} (halphabet : e.alphabet = d.alphabet)
    (hrun : ∀ w, Over d.alphabet w → e.run w = f (d.run w)) :
    e.reachable = d.reachable.map f := by
  ext q
  rw [OrdSet.mem_map, mem_reachable_iff, halphabet]
  constructor
  · rintro ⟨w, hw, rfl⟩
    exact ⟨d.run w, mem_reachable_iff.2 ⟨w, hw, rfl⟩, (hrun w hw).symm⟩
  · rintro ⟨_, hq, rfl⟩
    obtain ⟨w, hw, rfl⟩ := mem_reachable_iff.1 hq
    exact ⟨w, hw, hrun w hw⟩

/-- What holds of every reachable state holds after every word over the alphabet. -/
theorem forall_mem_reachable {P : Option σ → Prop} :
    (∀ q ∈ d.reachable, P q) ↔ ∀ w, Over d.alphabet w → P (d.run w) := by
  constructor
  · intro h w hw
    exact h _ (mem_reachable_iff.2 ⟨w, hw, rfl⟩)
  · intro h q hq
    obtain ⟨w, hw, rfl⟩ := mem_reachable_iff.1 hq
    exact h w hw

/-- **An automaton is empty exactly if it rejects every word over its alphabet.** -/
theorem isEmpty_iff : d.isEmpty ↔ ∀ w, Over d.alphabet w → d.accepts w = false := by
  rw [isEmpty, Bool.not_eq_true', List.any_eq_false]
  simp only [Bool.not_eq_true]
  exact forall_mem_reachable

/-- **An automaton is full exactly if it accepts every word over its alphabet.** -/
theorem isFull_iff : d.isFull ↔ ∀ w, Over d.alphabet w → d.accepts w := by
  rw [isFull, List.all_eq_true]
  exact forall_mem_reachable

/-- Every state has an entry for every symbol of the alphabet. -/
def Complete (d : Dfa σ α) : Prop :=
  ∀ q ∈ d.states, ∀ c ∈ d.alphabet, ∃ r ∈ d.states, d.step (some q) c = some r

/-! ## Valid automata -/

/-- An entry of a valid automaton joins states by a symbol of the alphabet. -/
theorem Valid.step (hd : d.Valid) {q r : σ} {c : α} (h : d.step (some q) c = some r) :
    q ∈ d.states ∧ c ∈ d.alphabet ∧ r ∈ d.states := by
  obtain ⟨row, hrow, hentry⟩ := List.mem_flatMap.1 (step_eq_some.1 h)
  obtain ⟨entry, he, heq⟩ := List.mem_map.1 hentry
  obtain ⟨rfl, rfl, rfl⟩ : row.1 = q ∧ entry.1 = c ∧ entry.2 = r := by
    simpa only [Prod.mk.injEq] using heq
  obtain ⟨hq, hentries⟩ := hd.2.1 row hrow
  exact ⟨hq, hentries entry he⟩

/-- A valid automaton stays among its states. -/
theorem Valid.run_mem (hd : d.Valid) {w : List α} {q : σ} (h : d.run w = some q) :
    q ∈ d.states := by
  induction w using List.reverseRecOn with
  | nil => exact hd.1 q h
  | append_singleton w c _ =>
    obtain ⟨p, _, hstep⟩ := run_concat_eq_some.1 h
    exact (hd.step hstep).2.2

/-- **A foreign symbol leads a valid automaton into the dead state.** -/
theorem Valid.run_eq_none (hd : d.Valid) {w : List α} (hw : ¬Over d.alphabet w) :
    d.run w = none := by
  induction w using List.reverseRecOn with
  | nil => exact absurd (over_nil _) hw
  | append_singleton w c ih =>
    by_cases hw' : Over d.alphabet w
    · have hc : c ∉ d.alphabet := fun hc => hw (over_concat.2 ⟨hw', hc⟩)
      refine Option.eq_none_iff_forall_ne_some.2 ?_
      intro r hr
      obtain ⟨q, _, hstep⟩ := run_concat_eq_some.1 hr
      exact hc (hd.step hstep).2.1
    · rw [run_concat, ih hw', step_dead]

/-- **Without a missing entry** no word over the alphabet leads into the dead state. -/
theorem Complete.isSome_run (hc : d.Complete) (hd : d.Valid) (hstart : d.start.isSome)
    {w : List α} (hw : Over d.alphabet w) : (d.run w).isSome := by
  induction w using List.reverseRecOn with
  | nil => exact hstart
  | append_singleton w c ih =>
    obtain ⟨hw, hmem⟩ := over_concat.1 hw
    obtain ⟨q, hq⟩ := Option.isSome_iff_exists.1 (ih hw)
    obtain ⟨r, _, hr⟩ := hc q (hd.run_mem hq) c hmem
    rw [run_concat, hq, hr]
    rfl

theorem Valid.accepts_eq_false (hd : d.Valid) {w : List α} (hw : ¬Over d.alphabet w) :
    d.accepts w = false := by
  rw [accepts, hd.run_eq_none hw]
  rfl

/-- A valid automaton accepts words over its alphabet only. -/
theorem Valid.over_of_accepts (hd : d.Valid) {w : List α} (hw : d.accepts w) :
    Over d.alphabet w := by
  by_contra hforeign
  rw [hd.accepts_eq_false hforeign] at hw
  exact Bool.false_ne_true hw

/-! ## Emptiness and fullness -/

/-- **Emptiness and fullness are about words over the alphabet**, in an automaton of any kind: it
is empty exactly if it rejects them all, and full exactly if it accepts them all.  A valid automaton
accepts no other words, so if it is empty it rejects every word whatsoever, and if it is full it
accepts the words over its alphabet and nothing else. -/
theorem emptiness_and_fullness (d : Dfa σ α) :
    (d.isEmpty ↔ ∀ w, (∀ c ∈ w, c ∈ d.alphabet) → ¬d.accepts w) ∧
      (d.isFull ↔ ∀ w, (∀ c ∈ w, c ∈ d.alphabet) → d.accepts w) ∧
      (d.Valid → (d.isEmpty ↔ ∀ w, ¬d.accepts w) ∧
        (d.isFull ↔ ∀ w, d.accepts w ↔ ∀ c ∈ w, c ∈ d.alphabet)) := by
  simp only [isEmpty_iff, isFull_iff, Bool.not_eq_true]
  refine ⟨Iff.rfl, Iff.rfl, fun hd => ⟨?_, ?_⟩⟩
  · refine ⟨fun h w => ?_, fun h w _ => h w⟩
    by_cases hw : Over d.alphabet w
    · exact h w hw
    · exact hd.accepts_eq_false hw
  · exact forall_congr' fun w => ⟨fun h => ⟨hd.over_of_accepts, h⟩, fun h => h.2⟩

/-- `c` leads from its start to `target`; in `1` it accepts and stays. -/
def gate (c : Char) (target : Nat) : Dfa Nat Char where
  states := .ofList [0, 1]
  alphabet := .ofList ['a']
  start := some 0
  rows := .ofList [(0, .ofList [(c, target)]), (1, .ofList [('a', 1)])]
  accepting := {1}

/-- Where `a` does not lead to the accepting state, it is out of reach and every word is rejected;
if the foreign symbol `b` leads there, the automaton is empty all the same, but only the words over
its alphabet are rejected. -/
theorem gate_isEmpty :
    ((gate 'a' 0).Valid ∧ (gate 'a' 0).isEmpty ∧ ∀ w, ¬(gate 'a' 0).accepts w) ∧
      ¬(gate 'b' 1).Valid ∧ (gate 'b' 1).isEmpty ∧ ¬(gate 'b' 1).accepts ['a'] ∧
      (gate 'b' 1).accepts ['b'] := by
  have hvalid : (gate 'a' 0).Valid := by decide
  have hempty : (gate 'a' 0).isEmpty := by decide +kernel
  have hforeign : (gate 'b' 1).isEmpty := by decide +kernel
  have hover : ∀ c ∈ ['a'], c ∈ (gate 'b' 1).alphabet := by simp [gate]
  obtain ⟨-, -, hall⟩ := emptiness_and_fullness (gate 'a' 0)
  obtain ⟨hwords, -, -⟩ := emptiness_and_fullness (gate 'b' 1)
  exact ⟨⟨hvalid, hempty, (hall hvalid).1.1 hempty⟩, by decide, hforeign,
    hwords.1 hforeign ['a'] hover, by decide⟩

end Dfa

end FiniteAutomata
