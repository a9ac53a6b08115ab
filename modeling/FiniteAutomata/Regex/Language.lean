import FiniteAutomata.Regex.Basic

/-!
# Regex/Language — what an expression denotes

`Denotes r w` is the usual reading of an expression as a set of words, by its constructors: nothing
is tried and nothing is cut, a word is put together from its parts.
-/

namespace FiniteAutomata.Regex

variable {α : Type}

/-- The word `w` is in the language of `r`. -/
inductive Denotes : Regex α → List α → Prop
  | epsilon : Denotes .epsilon []
  | symbol (c : α) : Denotes (.symbol c) [c]
  | concat {l r : Regex α} {u v : List α} : Denotes l u → Denotes r v →
      Denotes (.concat l r) (u ++ v)
  | left {l r : Regex α} {w : List α} : Denotes l w → Denotes (.union l r) w
  | right {l r : Regex α} {w : List α} : Denotes r w → Denotes (.union l r) w
  | done {r : Regex α} : Denotes (.star r) []
  | more {r : Regex α} {u v : List α} : Denotes r u → Denotes (.star r) v →
      Denotes (.star r) (u ++ v)

/-! ## What each constructor denotes -/

theorem denotes_empty {w : List α} : Denotes .empty w ↔ False := ⟨nofun, False.elim⟩

theorem denotes_epsilon {w : List α} : Denotes .epsilon w ↔ w = [] :=
  ⟨fun | .epsilon => rfl, fun h => h ▸ .epsilon⟩

theorem denotes_symbol {c : α} {w : List α} : Denotes (.symbol c) w ↔ w = [c] :=
  ⟨fun | .symbol _ => rfl, fun h => h ▸ .symbol c⟩

theorem denotes_concat {l r : Regex α} {w : List α} :
    Denotes (.concat l r) w ↔ ∃ u v, w = u ++ v ∧ Denotes l u ∧ Denotes r v :=
  ⟨fun | .concat hl hr => ⟨_, _, rfl, hl, hr⟩, fun ⟨_, _, hw, hl, hr⟩ => hw ▸ .concat hl hr⟩

theorem denotes_union {l r : Regex α} {w : List α} :
    Denotes (.union l r) w ↔ Denotes l w ∨ Denotes r w :=
  ⟨fun | .left h => .inl h | .right h => .inr h, fun h => h.elim .left .right⟩

/-- A word of an iteration that is not empty starts with a piece that is not empty. -/
theorem denotes_star_cons {r : Regex α} {c : α} {w : List α} :
    Denotes (.star r) (c :: w) ↔
      ∃ u v, w = u ++ v ∧ Denotes r (c :: u) ∧ Denotes (.star r) v := by
  refine ⟨fun h => ?_, fun ⟨u, v, hw, hu, hv⟩ => hw ▸ .more hu hv⟩
  generalize hs : Regex.star r = s at h
  generalize hcw : c :: w = cw at h
  induction h generalizing w with
  | done => cases hcw
  | @more r' u v hu hv _ ih =>
    cases hs
    cases u with
    | nil => exact ih rfl hcw
    | cons d u =>
      obtain ⟨rfl, rfl⟩ := List.cons.inj hcw
      exact ⟨u, v, rfl, hu, hv⟩
  | _ => cases hs

/-- An iteration denotes any number of words of the expression in a row. -/
theorem denotes_star {r : Regex α} {w : List α} :
    Denotes (.star r) w ↔ ∃ ws : List (List α), w = ws.flatten ∧ ∀ u ∈ ws, Denotes r u := by
  refine ⟨fun h => ?_, fun h => ?_⟩
  · generalize hs : Regex.star r = s at h
    induction h with
    | done => exact ⟨[], rfl, fun u hu => nomatch hu⟩
    | more hu _ _ ih =>
      cases hs
      obtain ⟨ws, rfl, hws⟩ := ih rfl
      exact ⟨_ :: ws, rfl, List.forall_mem_cons.2 ⟨hu, hws⟩⟩
    | _ => cases hs
  · obtain ⟨ws, rfl, hws⟩ := h
    induction ws with
    | nil => exact .done
    | cons u ws ih =>
      obtain ⟨hu, hws⟩ := List.forall_mem_cons.1 hws
      exact .more hu (ih hws)

/-- Nullable expressions are those that denote the empty word. -/
theorem isNullable_iff {r : Regex α} : r.isNullable = true ↔ Denotes r [] := by
  induction r with
  | empty => simp [isNullable, denotes_empty]
  | epsilon => simp [isNullable, denotes_epsilon]
  | symbol c => simp [isNullable, denotes_symbol]
  | concat l r hl hr =>
    rw [isNullable, Bool.and_eq_true, hl, hr, denotes_concat]
    constructor
    · exact fun h => ⟨[], [], rfl, h.1, h.2⟩
    · rintro ⟨u, v, huv, hu, hv⟩
      obtain ⟨rfl, rfl⟩ := List.append_eq_nil_iff.1 huv.symm
      exact ⟨hu, hv⟩
  | union l r hl hr => rw [isNullable, Bool.or_eq_true, hl, hr, denotes_union]
  | star r _ => exact iff_of_true rfl .done

end FiniteAutomata.Regex
