import FiniteAutomata.OrdSet.Basic

/-!
# OrdSet/Powerset — all subsets of a set

Every element doubles the list of subsets: each subset of the others occurs once with it and once
without it.
-/

namespace FiniteAutomata.OrdSet

variable {α : Type} [Ordered α]

/-- The subsets of the elements of a list, `2 ^ n` of them for `n` elements. -/
def subsetsOf : List α → List (OrdSet α)
  | [] => [∅]
  | x :: xs =>
    let without := subsetsOf xs
    without.map (insert x) ++ without

/-- All subsets of a set. -/
def powerset (s : OrdSet α) : OrdSet (OrdSet α) := ofList (subsetsOf s.toList)

theorem mem_subsetsOf : ∀ {xs : List α} {t : OrdSet α}, t ∈ subsetsOf xs ↔ ∀ x ∈ t, x ∈ xs
  | [], t => by
    simp only [subsetsOf, List.mem_singleton, List.not_mem_nil]
    exact ⟨fun h x hx => not_mem_empty (h ▸ hx), fun h => ext fun x => ⟨fun hx => (h x hx).elim,
      fun hx => (not_mem_empty hx).elim⟩⟩
  | y :: ys, t => by
    simp only [subsetsOf, List.mem_append, List.mem_map, mem_subsetsOf, List.mem_cons]
    constructor
    · rintro (⟨u, hu, rfl⟩ | h) x hx
      · exact (mem_insert.1 hx).imp_right (hu x)
      · exact .inr (h x hx)
    · intro h
      by_cases hy : y ∈ t
      · refine .inl ⟨t.filter fun x => compare x y != .eq, fun x hx => ?_, ext fun x => ?_⟩
        · obtain ⟨hxt, hne⟩ := mem_filter.1 hx
          exact (h x hxt).resolve_left fun he => by simp [he] at hne
        · simp only [mem_insert, mem_filter, bne_iff_ne, ne_eq, Ordered.compare_eq_iff]
          exact ⟨fun hx => hx.elim (fun he => he ▸ hy) And.left,
            fun hx => Decidable.or_iff_not_imp_left.2 fun hne => ⟨hx, hne⟩⟩
      · exact .inr fun x hx => (h x hx).resolve_left fun he => hy (he ▸ hx)

/-- **The powerset holds exactly the subsets.** -/
@[simp] theorem mem_powerset {s t : OrdSet α} : t ∈ s.powerset ↔ t ⊆ s :=
  mem_ofList.trans mem_subsetsOf

end FiniteAutomata.OrdSet
