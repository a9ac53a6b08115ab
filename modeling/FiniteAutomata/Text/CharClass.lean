/-!
# Text/CharClass — classes of characters given by runs of code points

A class lists the first and the last code point of each run, ascending, so that the search for a
character ends at the first run after it.  The order is checked when the class is defined, and with
it the search finds a character exactly if some run holds it (`CharClass.contains_iff`).
-/

namespace FiniteAutomata.Text

/-- Each run starts at `n` or later, is not empty, and ends before the next one starts. -/
def runsFrom (n : Nat) : List (Nat × Nat) → Bool
  | [] => true
  | (first, last) :: rest => n ≤ first && first ≤ last && runsFrom (last + 1) rest

/-- Looks for a code point, no further than its place. -/
def runsHold (n : Nat) : List (Nat × Nat) → Bool
  | [] => false
  | (first, last) :: rest => first ≤ n && (n ≤ last || runsHold n rest)

/-- A run that holds `n` starts no earlier than the list of runs may. -/
theorem le_of_runsFrom {m n : Nat} :
    ∀ {runs : List (Nat × Nat)}, runsFrom m runs → ∀ run ∈ runs, run.1 ≤ n → m ≤ n
  | (first, last) :: rest, ordered, run, hrun, hn => by
    simp only [runsFrom, Bool.and_eq_true, decide_eq_true_eq] at ordered
    rcases List.mem_cons.1 hrun with rfl | hrest
    · exact Nat.le_trans ordered.1.1 hn
    · have := le_of_runsFrom ordered.2 run hrest hn
      omega

/-- **The search is exact** on ascending runs. -/
theorem runsHold_iff {m n : Nat} : ∀ {runs : List (Nat × Nat)}, runsFrom m runs →
    (runsHold n runs ↔ ∃ run ∈ runs, run.1 ≤ n ∧ n ≤ run.2)
  | [], _ => by simp [runsHold]
  | (first, last) :: rest, ordered => by
    simp only [runsFrom, Bool.and_eq_true, decide_eq_true_eq] at ordered
    simp only [runsHold, Bool.and_eq_true, Bool.or_eq_true, decide_eq_true_eq,
      runsHold_iff ordered.2, List.mem_cons, exists_eq_or_imp]
    constructor
    · rintro ⟨hfirst, hlast | hrest⟩
      · exact .inl ⟨hfirst, hlast⟩
      · exact .inr hrest
    · rintro (⟨hfirst, hlast⟩ | ⟨run, hrun, hle, hge⟩)
      · exact ⟨hfirst, .inl hlast⟩
      · have := le_of_runsFrom ordered.2 run hrun hle
        exact ⟨by omega, .inr ⟨run, hrun, hle, hge⟩⟩

/-- A class of characters. -/
structure CharClass where
  /-- First and last code point of each run. -/
  runs : List (Nat × Nat)
  ordered : runsFrom 0 runs := by decide +kernel

namespace CharClass

/-- Whether a character is in the class. -/
def contains (k : CharClass) (c : Char) : Bool := runsHold c.toNat k.runs

theorem contains_iff (k : CharClass) (c : Char) :
    k.contains c ↔ ∃ run ∈ k.runs, run.1 ≤ c.toNat ∧ c.toNat ≤ run.2 :=
  runsHold_iff k.ordered

end CharClass

end FiniteAutomata.Text
