import FiniteAutomata.OrdSet.Basic

/-!
# Label/Basic — names of states as terms

A label is a term: a head applied to labels.  Numbers, texts and the like are heads without
arguments; the states a construction makes are terms over the states it was given.  Labels are
ordered by their heads first, then by their arguments from left to right, and a proper beginning of
an argument list comes first.
-/

namespace FiniteAutomata

/-- What a label is built with. -/
inductive Head
  | unit
  | bool (b : Bool)
  | int (i : Int)
  | text (s : String)
  | absent
  | present
  | pair
  | set
  | unionStart
  | unionLeft
  | unionRight
  | concatLeft
  | concatRight
  | starStart
  | starInner

namespace Head

/-- Heads of different kinds are ordered by kind. -/
def rank : Head → Nat
  | unit => 0
  | bool _ => 1
  | int _ => 2
  | text _ => 3
  | absent => 4
  | present => 5
  | pair => 6
  | set => 7
  | unionStart => 8
  | unionLeft => 9
  | unionRight => 10
  | concatLeft => 11
  | concatRight => 12
  | starStart => 13
  | starInner => 14

/-- The value of a head, beside its kind. -/
def value : Head → Bool × Int × String
  | bool b => (b, 0, "")
  | int i => (false, i, "")
  | text s => (false, 0, s)
  | _ => (false, 0, "")

theorem eq_of_rank_value {a b : Head} (hr : a.rank = b.rank) (hv : a.value = b.value) : a = b := by
  cases a <;> cases b <;> simp_all [rank, value]

/-- By kind, then by value. -/
instance : Ordered Head :=
  Ordered.ofCompare (fun a b => (compare a.rank b.rank).then (compare a.value b.value))
    (fun a b => Ordered.swap_compare (a.rank, a.value) (b.rank, b.value))
    (fun a b h => by
      obtain ⟨hr, hv⟩ := Ordering.then_eq_eq.1 h
      exact eq_of_rank_value (Ordered.compare_eq_iff.1 hr) (Ordered.compare_eq_iff.1 hv))
    (fun a b c hab hbc =>
      Ordered.lt_trans (a := (a.rank, a.value)) (b := (b.rank, b.value)) (c := (c.rank, c.value))
        hab hbc)

end Head

/-- The name of a state: a head applied to labels. -/
inductive Label
  | node (head : Head) (args : List Label)

namespace Label

mutual

/-- By head, then by arguments. -/
def compareTo : Label → Label → Ordering
  | node h as, node k bs => (compare h k).then (compareArgs as bs)

/-- From left to right; a proper beginning comes first. -/
def compareArgs : List Label → List Label → Ordering
  | [], [] => .eq
  | [], _ :: _ => .lt
  | _ :: _, [] => .gt
  | a :: as, b :: bs => (compareTo a b).then (compareArgs as bs)

end

mutual

theorem swap_compareTo : ∀ a b : Label, compareTo a b = (compareTo b a).swap
  | node h as, node k bs => by
    rw [compareTo, compareTo, Ordering.swap_then, ← Ordered.swap_compare, ← swap_compareArgs as bs]

theorem swap_compareArgs : ∀ as bs : List Label, compareArgs as bs = (compareArgs bs as).swap
  | [], [] => rfl
  | [], _ :: _ => rfl
  | _ :: _, [] => rfl
  | a :: as, b :: bs => by
    rw [compareArgs, compareArgs, Ordering.swap_then, ← swap_compareTo a b, ← swap_compareArgs as bs]

end

mutual

theorem eq_of_compareTo : ∀ a b : Label, compareTo a b = .eq → a = b
  | node h as, node k bs, hab => by
    obtain ⟨hh, ha⟩ := Ordering.then_eq_eq.1 hab
    rw [Ordered.compare_eq_iff.1 hh, eq_of_compareArgs as bs ha]

theorem eq_of_compareArgs : ∀ as bs : List Label, compareArgs as bs = .eq → as = bs
  | [], [], _ => rfl
  | a :: as, b :: bs, hab => by
    obtain ⟨hh, ht⟩ := Ordering.then_eq_eq.1 hab
    rw [eq_of_compareTo a b hh, eq_of_compareArgs as bs ht]

end

mutual

theorem compareTo_trans : ∀ a b c : Label, compareTo a b = .lt → compareTo b c = .lt →
    compareTo a c = .lt
  | node h as, node k bs, node l cs, hab, hbc => by
    rcases Ordering.then_eq_lt.1 hab with h₁ | ⟨h₁, h₂⟩ <;>
      rcases Ordering.then_eq_lt.1 hbc with k₁ | ⟨k₁, k₂⟩
    · exact Ordering.then_eq_lt.2 (.inl (Ordered.lt_trans h₁ k₁))
    · exact Ordering.then_eq_lt.2 (.inl (Ordered.compare_eq_iff.1 k₁ ▸ h₁))
    · exact Ordering.then_eq_lt.2 (.inl (Ordered.compare_eq_iff.1 h₁ ▸ k₁))
    · refine Ordering.then_eq_lt.2 (.inr ⟨?_, compareArgs_trans as bs cs h₂ k₂⟩)
      rw [Ordered.compare_eq_iff.1 h₁, k₁]

theorem compareArgs_trans : ∀ as bs cs : List Label, compareArgs as bs = .lt →
    compareArgs bs cs = .lt → compareArgs as cs = .lt
  | [], _ :: _, _ :: _, _, _ => rfl
  | a :: as, b :: bs, c :: cs, hab, hbc => by
    rcases Ordering.then_eq_lt.1 hab with h₁ | ⟨h₁, h₂⟩ <;>
      rcases Ordering.then_eq_lt.1 hbc with k₁ | ⟨k₁, k₂⟩
    · exact Ordering.then_eq_lt.2 (.inl (compareTo_trans a b c h₁ k₁))
    · exact Ordering.then_eq_lt.2 (.inl (eq_of_compareTo b c k₁ ▸ h₁))
    · exact Ordering.then_eq_lt.2 (.inl (eq_of_compareTo a b h₁ ▸ k₁))
    · refine Ordering.then_eq_lt.2 (.inr ⟨?_, compareArgs_trans as bs cs h₂ k₂⟩)
      rw [eq_of_compareTo a b h₁, k₁]

end

instance : Ordered Label :=
  Ordered.ofCompare compareTo swap_compareTo eq_of_compareTo compareTo_trans

end Label

end FiniteAutomata
