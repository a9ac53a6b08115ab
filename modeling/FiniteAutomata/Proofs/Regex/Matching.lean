import FiniteAutomata.Regex.Cutting
import FiniteAutomata.Regex.Marked
import Mathlib.Computability.Language

/-!
# Proofs/Regex/Matching — matching a word agrees with the language of the expression

`language` builds the language of an expression from those of its parts, by the operations on
languages; it holds the words that the expression denotes (`mem_language`).  Trying every cut and
moving marks are two ways to decide it, so they give one answer on every word
(`accepts_eq_matchesByCuts`).
-/

namespace FiniteAutomata.Regex

open scoped Computability

variable {α : Type}

/-- The language of an expression. -/
def language : Regex α → Language α
  | empty => 0
  | epsilon => 1
  | symbol c => {[c]}
  | concat l r => l.language * r.language
  | union l r => l.language + r.language
  | star r => r.language∗

/-- **The language holds the words that the expression denotes.** -/
theorem mem_language {r : Regex α} {w : List α} : w ∈ r.language ↔ Denotes r w := by
  induction r generalizing w with
  | empty => exact denotes_empty.symm
  | epsilon => exact (Language.mem_one w).trans denotes_epsilon.symm
  | symbol c => exact denotes_symbol.symm
  | concat l r hl hr =>
    rw [language, Language.mem_mul, denotes_concat]
    simp only [hl, hr]
    constructor
    · rintro ⟨u, hu, v, hv, rfl⟩
      exact ⟨u, v, rfl, hu, hv⟩
    · rintro ⟨u, v, rfl, hu, hv⟩
      exact ⟨u, hu, v, hv, rfl⟩
  | union l r hl hr => rw [language, Language.mem_add, hl, hr, denotes_union]
  | star r hr =>
    rw [language, Language.mem_kstar, denotes_star]
    simp only [hr]

/-- Marks and cuts give one answer. -/
theorem accepts_eq_matchesByCuts [DecidableEq α] (r : Regex α) (w : List α) :
    r.accepts w = r.matchesByCuts w := by
  rw [Bool.eq_iff_iff, accepts_iff, matchesByCuts_iff]

/-- **Matching decides the language.**  A word matches, in either way, exactly if it is in the
language of the expression; nullable are the expressions with the empty word in their language. -/
theorem matching_decides_language [DecidableEq α] (r : Regex α) (w : List α) :
    (r.matchesByCuts w ↔ w ∈ r.language) ∧ (r.accepts w ↔ w ∈ r.language) ∧
      (r.isNullable ↔ [] ∈ r.language) := by
  have hcuts : r.matchesByCuts w ↔ w ∈ r.language := (matchesByCuts_iff r w).trans mem_language.symm
  refine ⟨hcuts, ?_, ?_⟩
  · rw [accepts_eq_matchesByCuts]
    exact hcuts
  · rw [mem_language]
    exact isNullable_iff

/-- A star around a star: pieces that are empty make no difference. -/
example : (star (star (symbol 'a'))).matchesByCuts ['a', 'a'] = true := by cbv

end FiniteAutomata.Regex
