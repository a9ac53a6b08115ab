import FiniteAutomata.OrdSet.Basic

/-!
# OrdSet/Numbering — counting off the elements of a set

The elements of a set of size `n` are numbered `1` to `n` in ascending order: no number is given
twice (`number?_injective`), numbers keep the order (`number?_lt`), and all of them up to the size
are given (`mem_upTo_size`).
-/

namespace FiniteAutomata

namespace OrdSet

variable {α : Type} [Ordered α]

/-- How many elements of the set stand before `x`, if it is one of them. -/
def position? (s : OrdSet α) (x : α) : Option Nat := search (compare x) s.index

/-- The number of `x`, counting from `1`. -/
def number? (s : OrdSet α) (x : α) : Option Nat := (s.position? x).map (· + 1)

theorem isSome_position? {s : OrdSet α} {x : α} : (s.position? x).isSome ↔ x ∈ s := contains_iff

/-- **Exactly the elements have a number.** -/
theorem isSome_number? {s : OrdSet α} {x : α} : (s.number? x).isSome ↔ x ∈ s := by
  rw [number?, Option.isSome_map]
  exact isSome_position?

theorem exists_number? {s : OrdSet α} {x : α} (h : x ∈ s) : ∃ i, s.number? x = some i :=
  Option.isSome_iff_exists.1 (isSome_number?.2 h)

/-- A position tells the place of its element. -/
theorem position?_eq_some {s : OrdSet α} {x : α} {k : Nat} :
    s.position? x = some k ↔ s.toList[k]? = some x := by
  rw [position?, search_eq_some (s.sided_index x), s.index_eq, List.getElem?_toArray,
    Option.map_eq_some_iff]
  constructor
  · rintro ⟨y, hy, hxy⟩
    rw [hy, Ordered.compare_eq_iff.1 hxy]
  · intro hx
    exact ⟨x, hx, Ordered.compare_eq_iff.2 rfl⟩

/-- Two elements do not share a position. -/
theorem position?_injective {s : OrdSet α} {x y : α} {k : Nat} (hx : s.position? x = some k)
    (hy : s.position? y = some k) : x = y := by
  have hplace := position?_eq_some.1 hx
  rw [position?_eq_some.1 hy] at hplace
  exact (Option.some.inj hplace).symm

/-- A number tells the place of its element. -/
theorem number?_eq_some {s : OrdSet α} {x : α} {i : Nat} :
    s.number? x = some i ↔ ∃ k, i = k + 1 ∧ s.toList[k]? = some x := by
  rw [number?, Option.map_eq_some_iff]
  constructor
  · rintro ⟨k, hk, rfl⟩
    exact ⟨k, rfl, position?_eq_some.1 hk⟩
  · rintro ⟨k, rfl, hk⟩
    exact ⟨k, position?_eq_some.2 hk, rfl⟩

/-- An element with a number is one of the set. -/
theorem mem_of_number? {s : OrdSet α} {x : α} {i : Nat} (h : s.number? x = some i) : x ∈ s := by
  rw [← isSome_number?, h]
  rfl

/-- Two elements do not share a number. -/
theorem number?_injective {s : OrdSet α} {x y : α} {i : Nat} (hx : s.number? x = some i)
    (hy : s.number? y = some i) : x = y := by
  obtain ⟨k, hk, rfl⟩ := Option.map_eq_some_iff.1 hx
  obtain ⟨l, hl, hkl⟩ := Option.map_eq_some_iff.1 hy
  exact position?_injective hk (Nat.succ.inj hkl ▸ hl)

/-- Only one element has to be looked at for a number. -/
theorem exists_mem_number?_iff {s t : OrdSet α} {x : α} {i : Nat} (hx : s.number? x = some i) :
    (∃ y ∈ t, s.number? y = some i) ↔ x ∈ t := by
  refine ⟨fun h => ?_, fun h => ⟨x, h, hx⟩⟩
  obtain ⟨y, hy, hyi⟩ := h
  exact number?_injective hx hyi ▸ hy

/-- **Numbers keep the order.** -/
theorem number?_lt {s : OrdSet α} {x y : α} {i j : Nat} (hx : s.number? x = some i)
    (hy : s.number? y = some j) (hxy : compare x y = .lt) : i < j := by
  obtain ⟨k, rfl, hk⟩ := number?_eq_some.1 hx
  obtain ⟨l, rfl, hl⟩ := number?_eq_some.1 hy
  obtain ⟨hks, rfl⟩ := List.getElem?_eq_some_iff.1 hk
  obtain ⟨hls, rfl⟩ := List.getElem?_eq_some_iff.1 hl
  rcases Nat.lt_trichotomy k l with h | rfl | h
  · omega
  · exact absurd rfl (Ordered.ne_of_lt hxy)
  · exact absurd (List.pairwise_iff_getElem.1 s.ascending l k hls hks h) (Ordered.lt_asymm hxy)

/-- The numbers from `1` to `n`. -/
def upTo (n : Nat) : OrdSet Nat :=
  ofAscending (List.range' 1 n) ((List.pairwise_lt_range' 1).imp fun h => Nat.compare_eq_lt.2 h)

@[simp] theorem mem_upTo {n k : Nat} : k ∈ upTo n ↔ 1 ≤ k ∧ k ≤ n := by
  rw [upTo, mem_ofAscending, List.mem_range'_1]
  omega

theorem size_upTo (n : Nat) : (upTo n).size = n := List.length_range'

/-- **The numbers given out are those up to the size.** -/
theorem mem_upTo_size {s : OrdSet α} {i : Nat} :
    i ∈ upTo s.size ↔ ∃ x, s.number? x = some i := by
  rw [mem_upTo, size]
  constructor
  · rintro ⟨hpos, hle⟩
    have hlt : i - 1 < s.toList.length := by omega
    exact ⟨s.toList[i - 1], number?_eq_some.2
      ⟨i - 1, by omega, List.getElem?_eq_getElem hlt⟩⟩
  · rintro ⟨x, hx⟩
    obtain ⟨k, rfl, hk⟩ := number?_eq_some.1 hx
    obtain ⟨hlt, _⟩ := List.getElem?_eq_some_iff.1 hk
    omega

/-- The first element has the number `1`. -/
theorem number?_first {s : OrdSet α} {x : α} (hx : x ∈ s) (hfirst : ∀ y ∈ s, compare y x ≠ .lt) :
    s.number? x = some 1 := by
  obtain ⟨i, hi⟩ := exists_number? hx
  obtain ⟨hpos, hle⟩ := mem_upTo.1 (mem_upTo_size.2 ⟨x, hi⟩)
  obtain ⟨y, hy⟩ := mem_upTo_size.1 (mem_upTo.2 ⟨Nat.le_refl 1, Nat.le_trans hpos hle⟩)
  rcases Ordered.lt_or_eq_or_gt y x with h | rfl | h
  · exact absurd h (hfirst y (mem_of_number? hy))
  · exact hy
  · exact absurd (number?_lt hi hy h) (Nat.not_lt.2 hpos)

end OrdSet

end FiniteAutomata
