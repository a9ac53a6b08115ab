import FiniteAutomata.Regex.Language

/-!
# Regex/Cutting — matching a word by all its cuts

The plain way to match: the empty word is left to `isNullable`, a concatenation tries every cut of
the word, and an iteration every cut whose first piece is not empty.  The number of cuts tried can
grow exponentially; `accepts` (Regex/Marked) answers in one pass.

A piece that is not empty is all an iteration needs, since empty ones can be left out
(`denotes_star_cons`); so the words that match are those that the expression denotes
(`matchesByCuts_iff`).
-/

namespace FiniteAutomata.Regex

variable {α : Type}

/-- Whether the word is in the language of the expression, by trying every cut.  The expression gets
smaller, or the word does. -/
def matchesByCuts [DecidableEq α] : Regex α → List α → Bool
  | r, [] => r.isNullable
  | empty, _ :: _ | epsilon, _ :: _ => false
  | symbol d, c :: w => w.isEmpty && c == d
  | concat l r, c :: w => (List.range ((c :: w).length + 1)).any fun i =>
      l.matchesByCuts ((c :: w).take i) && r.matchesByCuts ((c :: w).drop i)
  | union l r, c :: w => l.matchesByCuts (c :: w) || r.matchesByCuts (c :: w)
  | star r, c :: w => (List.range (w.length + 1)).any fun i =>
      r.matchesByCuts (c :: w.take i) && (star r).matchesByCuts (w.drop i)
termination_by r w => (sizeOf r, w.length)

/-- Cutting at every place gives every pair of pieces. -/
theorem exists_cut_iff {P Q : List α → Prop} {w : List α} :
    (∃ i < w.length + 1, P (w.take i) ∧ Q (w.drop i)) ↔ ∃ u v, w = u ++ v ∧ P u ∧ Q v := by
  constructor
  · rintro ⟨i, _, hu, hv⟩
    exact ⟨w.take i, w.drop i, (List.take_append_drop i w).symm, hu, hv⟩
  · rintro ⟨u, v, rfl, hu, hv⟩
    refine ⟨u.length, ?_, ?_, ?_⟩
    · rw [List.length_append]
      omega
    · rwa [List.take_left]
    · rwa [List.drop_left]

/-- **The words that match are those that the expression denotes.** -/
theorem matchesByCuts_iff [DecidableEq α] :
    ∀ (r : Regex α) (w : List α), r.matchesByCuts w ↔ Denotes r w
  | _, [] => by rw [matchesByCuts, isNullable_iff]
  | empty, _ :: _ => by simp [matchesByCuts, denotes_empty]
  | epsilon, _ :: _ => by simp [matchesByCuts, denotes_epsilon]
  | symbol d, c :: w => by simp [matchesByCuts, denotes_symbol, and_comm]
  | concat l r, c :: w => by
    simp only [matchesByCuts, List.any_eq_true, List.mem_range, Bool.and_eq_true,
      matchesByCuts_iff l, matchesByCuts_iff r]
    exact exists_cut_iff.trans denotes_concat.symm
  | union l r, c :: w => by
    rw [matchesByCuts, Bool.or_eq_true, matchesByCuts_iff l, matchesByCuts_iff r, denotes_union]
  | star r, c :: w => by
    -- the first piece is not empty, so what is left of the word is shorter
    have hrest (i : Nat) : (star r).matchesByCuts (w.drop i) ↔ Denotes (star r) (w.drop i) :=
      matchesByCuts_iff (star r) (w.drop i)
    simp only [matchesByCuts, List.any_eq_true, List.mem_range, Bool.and_eq_true,
      matchesByCuts_iff r, hrest]
    exact exists_cut_iff.trans denotes_star_cons.symm
termination_by r w => (sizeOf r, w.length)

end FiniteAutomata.Regex
