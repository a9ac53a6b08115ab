import FiniteAutomata.Proofs.Order.Counting

/-!
# Proofs/Order/Doubling — the subsets of a set, doubled by one element after another

The list of subsets can be grown in place: it begins with the empty subset, and every element adds
each subset so far once more with the element in it.  After some elements it is a rearrangement of
the subsets of these, the last element first (`foldl_double_perm`), so it lists every subset of a set
and none of them twice (`powerset_lists_subsets`).
-/

namespace FiniteAutomata.OrdSet

variable {α : Type} [Ordered α]

/-- The subsets so far, and each of them once more with one more element. -/
def double (subsets : List (OrdSet α)) (x : α) : List (OrdSet α) :=
  subsets ++ subsets.map (insert x)

/-- The subsets that come from the empty one by doubling with one element after another. -/
def doublings (xs : List α) : List (OrdSet α) := xs.foldl double [∅]

/-- One element doubles the subsets of others to those with it and those without it. -/
theorem double_perm {subsets : List (OrdSet α)} {xs : List α} (h : subsets.Perm (subsetsOf xs))
    (x : α) : (double subsets x).Perm (subsetsOf (x :: xs)) :=
  List.perm_append_comm.trans ((h.map (insert x)).append h)

/-- **Doubling lists the subsets of the elements so far.** -/
theorem foldl_double_perm : ∀ (ys : List α) {subsets : List (OrdSet α)} {xs : List α},
    subsets.Perm (subsetsOf xs) → (ys.foldl double subsets).Perm (subsetsOf (ys.reverse ++ xs))
  | [], _, _, h => h
  | y :: ys, _, _, h => by
    rw [List.foldl_cons, List.reverse_cons, List.append_assoc]
    exact foldl_double_perm ys (double_perm h y)

theorem doublings_perm (xs : List α) : (doublings xs).Perm (subsetsOf xs.reverse) := by
  have h := foldl_double_perm xs (List.Perm.refl (subsetsOf []))
  rwa [List.append_nil] at h

theorem mem_doublings {xs : List α} {t : OrdSet α} : t ∈ doublings xs ↔ ∀ x ∈ t, x ∈ xs := by
  rw [(doublings_perm xs).mem_iff, mem_subsetsOf]
  simp only [List.mem_reverse]

theorem nodup_doublings {xs : List α} (h : xs.Nodup) : (doublings xs).Nodup :=
  (doublings_perm xs).nodup_iff.2 (nodup_subsetsOf (List.nodup_reverse.2 h))

theorem length_doublings (xs : List α) : (doublings xs).length = 2 ^ xs.length := by
  rw [(doublings_perm xs).length_eq, length_subsetsOf, List.length_reverse]

/-- **The powerset holds every subset once.**  For a set of `n` elements the list that doubles with
one of them after another, in ascending order, has `2 ^ n` entries, no two of them alike; the list
that the powerset is collected from is a rearrangement of it, so nothing is lost and nothing is there
twice. -/
theorem powerset_lists_subsets (s : OrdSet α) :
    (∀ t, t ∈ s.powerset ↔ t ⊆ s) ∧
      (doublings s.toList).Nodup ∧ (doublings s.toList).length = 2 ^ s.size ∧
      (subsetsOf s.toList).Perm (doublings s.toList) ∧
      s.powerset = .ofList (doublings s.toList) ∧ s.powerset.size = 2 ^ s.size := by
  have hdoublings : (doublings s.toList).Nodup := nodup_doublings s.nodup_toList
  have hperm : (subsetsOf s.toList).Perm (doublings s.toList) :=
    (List.perm_ext_iff_of_nodup (nodup_subsetsOf s.nodup_toList) hdoublings).2 fun t =>
      mem_subsetsOf.trans mem_doublings.symm
  refine ⟨fun t => mem_powerset, hdoublings, length_doublings _, hperm, ?_, size_powerset s⟩
  ext t
  rw [powerset, mem_ofList, mem_ofList, hperm.mem_iff]

end FiniteAutomata.OrdSet
