import FiniteAutomata.OrdSet.Powerset
import Mathlib.Algebra.Group.Nat.Defs
import Mathlib.Data.List.Nodup
import Mathlib.Data.List.Perm.Subperm
import Mathlib.Data.List.ProdSigma

/-!
# Proofs/Order/Counting — how many elements a set has

A set has as many elements as any list that holds each of them once (`OrdSet.size_eq_length`), so
the size of what is built is read off a list of its elements: one more after an insertion, as many
after an injection, and a product of sizes for the pairs.
-/

namespace FiniteAutomata.OrdSet

variable {α β : Type} [Ordered α] [Ordered β]

theorem nodup_toList (s : OrdSet α) : s.toList.Nodup := s.ascending.imp Ordered.ne_of_lt

/-- **A set is as large as a list of its elements**, each listed once. -/
theorem size_eq_length {s : OrdSet α} {xs : List α} (hxs : xs.Nodup) (h : ∀ x, x ∈ s ↔ x ∈ xs) :
    s.size = xs.length :=
  ((List.perm_ext_iff_of_nodup s.nodup_toList hxs).2 h).length_eq

theorem size_insert {x : α} {s : OrdSet α} (hx : x ∉ s) : (insert x s).size = s.size + 1 := by
  have hnodup : (x :: s.toList).Nodup := List.nodup_cons.2 ⟨hx, s.nodup_toList⟩
  exact size_eq_length hnodup fun y => mem_insert.trans List.mem_cons.symm

/-- Sets without an element in common are counted one after the other. -/
theorem size_union {s t : OrdSet α} (h : ∀ x ∈ s, x ∉ t) : (s ∪ t).size = s.size + t.size := by
  have hnodup : (s.toList ++ t.toList).Nodup :=
    s.nodup_toList.append t.nodup_toList fun x hs ht => h x hs ht
  rw [size_eq_length hnodup fun x => mem_union.trans List.mem_append.symm, List.length_append,
    size, size]

/-- Different elements have different images. -/
theorem size_map {f : α → β} (hf : Function.Injective f) (s : OrdSet α) :
    (s.map f).size = s.size := by
  have hnodup : (s.toList.map f).Nodup := List.Nodup.map hf s.nodup_toList
  rw [size_eq_length hnodup fun y => mem_map.trans List.mem_map.symm, List.length_map, size]

/-- There are as many pairs as the sizes say. -/
theorem size_product (s : OrdSet α) (t : OrdSet β) : (s.product t).size = s.size * t.size := by
  have hnodup : (s.toList ×ˢ t.toList).Nodup :=
    List.Nodup.product s.nodup_toList t.nodup_toList
  have hmem : ∀ p, p ∈ s.product t ↔ p ∈ s.toList ×ˢ t.toList := fun ⟨_, _⟩ =>
    mem_product.trans List.mem_product.symm
  rw [size_eq_length hnodup hmem, List.length_product, size, size]

theorem length_subsetsOf : ∀ xs : List α, (subsetsOf xs).length = 2 ^ xs.length
  | [] => rfl
  | x :: xs => by
    rw [subsetsOf, List.length_append, List.length_map, length_subsetsOf xs, List.length_cons,
      pow_succ]
    omega

/-- An element that neither set has makes no difference between them. -/
theorem eq_of_insert_eq_insert {x : α} {s t : OrdSet α} (hs : x ∉ s) (ht : x ∉ t)
    (h : insert x s = insert x t) : s = t := by
  ext y
  have hy : y = x ∨ y ∈ s ↔ y = x ∨ y ∈ t := by rw [← mem_insert, h, mem_insert]
  by_cases hxy : y = x
  · subst hxy
    exact iff_of_false hs ht
  · simpa only [hxy, false_or] using hy

/-- **No subset is listed twice**: those with the first element differ from those without it. -/
theorem nodup_subsetsOf : ∀ {xs : List α}, xs.Nodup → (subsetsOf xs).Nodup
  | [], _ => List.nodup_singleton _
  | x :: xs, h => by
    obtain ⟨hx, hxs⟩ := List.nodup_cons.1 h
    have hfresh : ∀ s ∈ subsetsOf xs, x ∉ s := fun s hs hxs' => hx (mem_subsetsOf.1 hs x hxs')
    have hwithout : (subsetsOf xs).Nodup := nodup_subsetsOf hxs
    have hwith : ((subsetsOf xs).map (insert x)).Nodup :=
      List.Nodup.map_on (fun s hs t ht => eq_of_insert_eq_insert (hfresh s hs) (hfresh t ht))
        hwithout
    refine hwith.append hwithout fun s hs hs' => ?_
    obtain ⟨t, -, rfl⟩ := List.mem_map.1 hs
    exact hfresh _ hs' (mem_insert.2 (.inl rfl))

/-- **A set of `n` elements has `2 ^ n` subsets.** -/
theorem size_powerset (s : OrdSet α) : s.powerset.size = 2 ^ s.size := by
  rw [powerset, size_eq_length (nodup_subsetsOf s.nodup_toList) fun _ => mem_ofList,
    length_subsetsOf, size]

end FiniteAutomata.OrdSet
