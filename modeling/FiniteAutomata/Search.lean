/-!
# Search — finding a place in an ascending array by halving

What is sought is given by the side on which it lies of each element: before it (`.lt`), at it
(`.eq`) or after it (`.gt`).  If the sides agree on every two elements (`Sided`), each look at the
middle of an interval leaves one half of it, and the search finds the place if there is one
(`search_eq_some`).
-/

namespace FiniteAutomata

variable {β : Type}

/-- Of two elements in a row, what is sought lies after the first or before the second. -/
def Sided (side : β → Ordering) (xs : List β) : Prop :=
  xs.Pairwise fun a b => side a = .gt ∨ side b = .lt

/-- Looks for the place in the interval from `lo` to `hi`, at most `fuel` times. -/
def searchBetween (side : β → Ordering) (xs : Array β) : Nat → Nat → Nat → Option Nat
  | 0, _, _ => none
  | fuel + 1, lo, hi =>
    if lo < hi then
      let mid := (lo + hi) / 2
      match xs[mid]?.map side with
      | none => none
      | some .lt => searchBetween side xs fuel lo mid
      | some .eq => some mid
      | some .gt => searchBetween side xs fuel (mid + 1) hi
    else
      none

/-- The place of what lies on the given side of each element. -/
def search (side : β → Ordering) (xs : Array β) : Option Nat :=
  searchBetween side xs xs.size 0 xs.size

/-- What is found is sought. -/
theorem side_of_searchBetween {side : β → Ordering} {xs : Array β} {i : Nat} :
    ∀ {fuel lo hi : Nat}, searchBetween side xs fuel lo hi = some i → xs[i]?.map side = some .eq
  | 0, _, _, h => nomatch h
  | fuel + 1, lo, hi, h => by
    rw [searchBetween] at h
    split at h
    · dsimp only at h
      split at h
      · cases h
      · exact side_of_searchBetween h
      · next hmid => exact Option.some.inj h ▸ hmid
      · exact side_of_searchBetween h
    · cases h

/-- What is sought lies after one place or before a later one. -/
theorem Sided.at {side : β → Ordering} {xs : Array β} (h : Sided side xs.toList) {i j : Nat}
    {a b : Ordering} (hij : i < j) (hi : xs[i]?.map side = some a)
    (hj : xs[j]?.map side = some b) : a = .gt ∨ b = .lt := by
  obtain ⟨x, hx, rfl⟩ := Option.map_eq_some_iff.1 hi
  obtain ⟨y, hy, rfl⟩ := Option.map_eq_some_iff.1 hj
  obtain ⟨hxs, rfl⟩ := Array.getElem?_eq_some_iff.1 hx
  obtain ⟨hys, rfl⟩ := Array.getElem?_eq_some_iff.1 hy
  exact List.pairwise_iff_getElem.1 h i j hxs hys hij

/-- What is sought in the interval is found, given enough looks. -/
theorem searchBetween_eq_some {side : β → Ordering} {xs : Array β} (h : Sided side xs.toList)
    {i : Nat} (heq : xs[i]?.map side = some .eq) :
    ∀ {fuel lo hi : Nat}, lo ≤ i → i < hi → hi ≤ xs.size → hi ≤ lo + fuel →
      searchBetween side xs fuel lo hi = some i
  | 0, _, _, _, _, _, _ => by omega
  | fuel + 1, lo, hi, hlo, hhi, hsize, hfuel => by
    have hmid : (lo + hi) / 2 < xs.size := by omega
    rw [searchBetween, if_pos (by omega)]
    dsimp only
    split
    · next hnone => simp [hmid] at hnone
    · next hlt =>
      have hne : (lo + hi) / 2 ≠ i := fun he => by simp [← he, hlt] at heq
      have hge : ¬(lo + hi) / 2 < i := fun hc => by simpa using h.at hc hlt heq
      exact searchBetween_eq_some h heq hlo (by omega) (by omega) (by omega)
    · next hmideq =>
      have hge : ¬(lo + hi) / 2 < i := fun hc => by simpa using h.at hc hmideq heq
      have hle : ¬i < (lo + hi) / 2 := fun hc => by simpa using h.at hc heq hmideq
      exact congrArg some (by omega)
    · next hgt =>
      have hne : (lo + hi) / 2 ≠ i := fun he => by simp [← he, hgt] at heq
      have hle : ¬i < (lo + hi) / 2 := fun hc => by simpa using h.at hc heq hgt
      exact searchBetween_eq_some h heq (by omega) hhi hsize (by omega)

/-- **The search finds the place if there is one.** -/
theorem search_eq_some {side : β → Ordering} {xs : Array β} (h : Sided side xs.toList) {i : Nat} :
    search side xs = some i ↔ xs[i]?.map side = some .eq := by
  refine ⟨side_of_searchBetween, fun hi => ?_⟩
  obtain ⟨x, hx, _⟩ := Option.map_eq_some_iff.1 hi
  obtain ⟨hsize, _⟩ := Array.getElem?_eq_some_iff.1 hx
  exact searchBetween_eq_some h hi (Nat.zero_le i) hsize (Nat.le_refl _) (by omega)

/-- Something is found exactly if some element is sought. -/
theorem isSome_search {side : β → Ordering} {xs : Array β} (h : Sided side xs.toList) :
    (search side xs).isSome ↔ ∃ x ∈ xs, side x = .eq := by
  simp only [Option.isSome_iff_exists, search_eq_some h, Option.map_eq_some_iff,
    Array.mem_iff_getElem?]
  exact ⟨fun ⟨i, x, hx, hs⟩ => ⟨x, ⟨i, hx⟩, hs⟩, fun ⟨x, ⟨i, hx⟩, hs⟩ => ⟨i, x, hx, hs⟩⟩

end FiniteAutomata
