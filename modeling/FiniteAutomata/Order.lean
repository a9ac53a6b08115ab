/-!
# Order — lawful comparison, and the orders every state type is built from

`Ordered α` is a comparison that is a strict total order: it is oriented, transitive, and reports
equality of equal elements only.  Everything finite in this library is stored ascending in such an
order, so equal collections are equal values.  Pairs compare their first components before their
second ones, and `Ordered.ofKey` transports an order along an injection.
-/

namespace FiniteAutomata

/-- A strict total order, given by its three-way comparison. -/
class Ordered (α : Type) extends Ord α, Std.TransOrd α, Std.LawfulEqOrd α

namespace Ordered

variable {α β κ : Type}

/-! ## Laws of the comparison -/

section Laws

variable [Ordered α] {a b c : α}

theorem compare_eq_iff : compare a b = .eq ↔ a = b := Std.compare_eq_iff_eq

theorem swap_compare (a b : α) : compare a b = (compare b a).swap := Std.OrientedCmp.eq_swap

theorem compare_gt_iff : compare a b = .gt ↔ compare b a = .lt := Std.OrientedCmp.gt_iff_lt

theorem lt_trans (hab : compare a b = .lt) (hbc : compare b c = .lt) : compare a c = .lt :=
  Std.TransCmp.lt_trans hab hbc

theorem ne_of_lt (h : compare a b = .lt) : a ≠ b := by
  rintro rfl
  simp at h

theorem lt_asymm (h : compare a b = .lt) : compare b a ≠ .lt := fun h' => ne_of_lt (lt_trans h h') rfl

theorem lt_or_eq_or_gt (a b : α) : compare a b = .lt ∨ a = b ∨ compare b a = .lt := by
  cases h : compare a b with
  | lt => exact .inl rfl
  | eq => exact .inr (.inl (compare_eq_iff.1 h))
  | gt => exact .inr (.inr (compare_gt_iff.1 h))

end Laws

/-- Equality is what the comparison reports as equality. -/
instance (priority := low) [Ordered α] : DecidableEq α := fun a b =>
  decidable_of_iff (compare a b = .eq) compare_eq_iff

/-! ## Building an order -/

/-- A comparison is an order if it is oriented, transitive on `.lt`, and equal only on equals. -/
@[reducible] def ofCompare (cmp : α → α → Ordering) (swap : ∀ a b, cmp a b = (cmp b a).swap)
    (eq_of_cmp : ∀ a b, cmp a b = .eq → a = b)
    (trans : ∀ a b c, cmp a b = .lt → cmp b c = .lt → cmp a c = .lt) : Ordered α where
  compare := cmp
  eq_swap {a b} := swap a b
  isLE_trans {a b c} hab hbc := by
    cases h : cmp a b with
    | gt => simp [h] at hab
    | eq => exact eq_of_cmp a b h ▸ hbc
    | lt =>
      cases h' : cmp b c with
      | gt => simp [h'] at hbc
      | eq => exact eq_of_cmp b c h' ▸ hab
      | lt => simp [trans a b c h h']
  compare_self {a} := by
    have h := swap a a
    cases h' : cmp a a with
    | eq => rfl
    | lt => rw [h'] at h; cases h
    | gt => rw [h'] at h; cases h
  eq_of_compare {a b} := eq_of_cmp a b

/-- The order in which `a` comes before `b` if the key of `a` comes before the key of `b`. -/
@[reducible] def ofKey [Ordered κ] (key : α → κ) (inj : ∀ a b, key a = key b → a = b) : Ordered α :=
  ofCompare (fun a b => compare (key a) (key b))
    (fun _ _ => swap_compare _ _)
    (fun a b h => inj a b (compare_eq_iff.1 h))
    (fun _ _ _ => lt_trans)

/-! ## The orders of the basic types -/

instance : Ordered Nat := {}

instance : Ordered Int := {}

instance : Ordered Char := {}

instance : Ordered String := {}

instance : Ordered Bool := {}

instance [Ordered α] : Ordered (Option α) := {}

instance [Ordered α] : Ordered (List α) := {}

instance : Ordered Unit :=
  ofCompare (fun _ _ => .eq) (fun _ _ => rfl) (fun _ _ _ => rfl) (fun _ _ _ h _ => h)

/-- First components first. -/
instance [Ordered α] [Ordered β] : Ordered (α × β) :=
  ofCompare (fun a b => (compare a.1 b.1).then (compare a.2 b.2))
    (fun a b => by
      rw [Ordering.swap_then, ← swap_compare, ← swap_compare])
    (fun a b h => by
      obtain ⟨h₁, h₂⟩ := Ordering.then_eq_eq.1 h
      exact Prod.ext (compare_eq_iff.1 h₁) (compare_eq_iff.1 h₂))
    (fun a b c hab hbc => by
      rcases Ordering.then_eq_lt.1 hab with h | ⟨h, h'⟩ <;>
        rcases Ordering.then_eq_lt.1 hbc with k | ⟨k, k'⟩
      · exact Ordering.then_eq_lt.2 (.inl (lt_trans h k))
      · exact Ordering.then_eq_lt.2 (.inl (compare_eq_iff.1 k ▸ h))
      · exact Ordering.then_eq_lt.2 (.inl (compare_eq_iff.1 h ▸ k))
      · exact Ordering.then_eq_lt.2
          (.inr ⟨compare_eq_iff.2 ((compare_eq_iff.1 h).trans (compare_eq_iff.1 k)),
            lt_trans h' k'⟩))

theorem compare_pair [Ordered α] [Ordered β] (a b : α × β) :
    compare a b = (compare a.1 b.1).then (compare a.2 b.2) := rfl

end Ordered

end FiniteAutomata
