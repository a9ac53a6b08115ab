import FiniteAutomata.Order
import FiniteAutomata.Search

/-!
# OrdSet/Basic — finite sets stored strictly ascending

A set is the ascending list of its elements, so two sets with the same elements are the same value
(`OrdSet.ext`) and listing a set is reading it off.  Beside the list stands the array of the same
elements, in which an element is found by halving.  Each operation is described by what it does to
membership; the list behind it is looked at again only where the order itself matters.
-/

namespace FiniteAutomata

/-- Strictly ascending. -/
abbrev Ascending {α : Type} [Ordered α] (xs : List α) : Prop :=
  xs.Pairwise fun a b => compare a b = .lt

/-! ## Ascending lists -/

/-- Two lists sorted by one asymmetric relation are equal if they have the same members. -/
theorem eq_of_pairwise_of_mem_iff {α : Type} {R : α → α → Prop} (asymm : ∀ a b, R a b → ¬R b a) :
    ∀ {xs ys : List α}, xs.Pairwise R → ys.Pairwise R → (∀ z, z ∈ xs ↔ z ∈ ys) → xs = ys
  | [], [], _, _, _ => rfl
  | [], y :: _, _, _, h => absurd ((h y).2 (List.mem_cons_self ..)) List.not_mem_nil
  | x :: _, [], _, _, h => absurd ((h x).1 (List.mem_cons_self ..)) List.not_mem_nil
  | x :: xs, y :: ys, hx, hy, h => by
    have hx' := List.pairwise_cons.1 hx
    have hy' := List.pairwise_cons.1 hy
    have hxy : x = y := by
      rcases List.mem_cons.1 ((h x).1 (List.mem_cons_self ..)) with he | hm
      · exact he
      · rcases List.mem_cons.1 ((h y).2 (List.mem_cons_self ..)) with he | hm'
        · exact he.symm
        · exact absurd (hy'.1 x hm) (asymm _ _ (hx'.1 y hm'))
    subst hxy
    refine congrArg (x :: ·) (eq_of_pairwise_of_mem_iff asymm hx'.2 hy'.2 fun z =>
      ⟨fun hz => ?_, fun hz => ?_⟩)
    · exact (List.mem_cons.1 ((h z).1 (List.mem_cons_of_mem _ hz))).resolve_left
        fun he => asymm _ _ (he ▸ hx'.1 z hz) (he ▸ hx'.1 z hz)
    · exact (List.mem_cons.1 ((h z).2 (List.mem_cons_of_mem _ hz))).resolve_left
        fun he => asymm _ _ (he ▸ hy'.1 z hz) (he ▸ hy'.1 z hz)

namespace Ascending

variable {α : Type} [Ordered α]

/-- Puts an element at its place, once. -/
def insert (x : α) : List α → List α
  | [] => [x]
  | y :: ys =>
    match compare x y with
    | .lt => x :: y :: ys
    | .eq => y :: ys
    | .gt => y :: insert x ys

theorem mem_insert {x z : α} : ∀ {xs : List α}, z ∈ insert x xs ↔ z = x ∨ z ∈ xs
  | [] => by simp [insert]
  | y :: ys => by
    rw [insert]
    split
    · simp
    · next h => simp [Ordered.compare_eq_iff.1 h]
    · simp only [List.mem_cons, mem_insert]
      exact ⟨fun h => by rcases h with h | h | h <;> simp [h],
        fun h => by rcases h with h | h | h <;> simp [h]⟩

theorem pairwise_insert {x : α} : ∀ {xs : List α}, Ascending xs → Ascending (insert x xs)
  | [], _ => by simp [insert]
  | y :: ys, h => by
    have hy := List.pairwise_cons.1 h
    rw [insert]
    split
    · next hx =>
      refine List.pairwise_cons.2 ⟨fun z hz => ?_, h⟩
      rcases List.mem_cons.1 hz with rfl | hz
      · exact hx
      · exact Ordered.lt_trans hx (hy.1 z hz)
    · exact h
    · next hx =>
      refine List.pairwise_cons.2 ⟨fun z hz => ?_, pairwise_insert hy.2⟩
      rcases mem_insert.1 hz with rfl | hz
      · exact Ordered.compare_gt_iff.1 hx
      · exact hy.1 z hz

/-- Puts every element of `xs` at its place, once. -/
def insertAll (xs ys : List α) : List α := xs.foldr insert ys

theorem mem_insertAll {z : α} {ys : List α} : ∀ {xs : List α},
    z ∈ insertAll xs ys ↔ z ∈ xs ∨ z ∈ ys
  | [] => by simp [insertAll]
  | x :: xs => by
    have : insertAll (x :: xs) ys = insert x (insertAll xs ys) := rfl
    rw [this, mem_insert, mem_insertAll, List.mem_cons, or_assoc]

theorem pairwise_insertAll {ys : List α} (h : Ascending ys) : ∀ {xs : List α},
    Ascending (insertAll xs ys)
  | [] => h
  | _ :: _ => pairwise_insert (pairwise_insertAll h)

/-- An element lies after what comes before it, and before what comes after it. -/
theorem sided {xs : List α} (h : Ascending xs) (x : α) : Sided (compare x) xs :=
  h.imp fun {a b} hab => by
    rcases Ordered.lt_or_eq_or_gt a x with hx | rfl | hx
    · exact .inl (Ordered.compare_gt_iff.2 hx)
    · exact .inr hab
    · exact .inr (Ordered.lt_trans hx hab)

/-- **An ascending list is determined by its members.** -/
theorem eq_of_mem_iff {xs ys : List α} (hx : Ascending xs) (hy : Ascending ys)
    (h : ∀ z, z ∈ xs ↔ z ∈ ys) : xs = ys :=
  eq_of_pairwise_of_mem_iff (fun _ _ => Ordered.lt_asymm) hx hy h

end Ascending

/-! ## Sets -/

/-- A finite set, as the strictly ascending list of its elements. -/
structure OrdSet (α : Type) [Ordered α] where
  toList : List α
  ascending : Ascending toList
  /-- The elements once more, for searching. -/
  index : Array α := toList.toArray
  index_eq : index = toList.toArray := by rfl

namespace OrdSet

variable {α β : Type} [Ordered α] [Ordered β]

instance : Membership α (OrdSet α) := ⟨fun s x => x ∈ s.toList⟩

theorem mem_def {x : α} {s : OrdSet α} : x ∈ s ↔ x ∈ s.toList := Iff.rfl

@[simp] theorem mem_toList {x : α} {s : OrdSet α} : x ∈ s.toList ↔ x ∈ s := Iff.rfl

theorem toList_injective : ∀ {s t : OrdSet α}, s.toList = t.toList → s = t
  | ⟨_, _, _, rfl⟩, ⟨_, _, _, rfl⟩, rfl => rfl

/-- **A set is determined by its elements.** -/
@[ext] theorem ext {s t : OrdSet α} (h : ∀ x, x ∈ s ↔ x ∈ t) : s = t :=
  toList_injective (Ascending.eq_of_mem_iff s.ascending t.ascending h)

/-- The number of elements. -/
def size (s : OrdSet α) : Nat := s.toList.length

/-- The test behind `∈`. -/
def contains (s : OrdSet α) (x : α) : Bool := (search (compare x) s.index).isSome

theorem sided_index (s : OrdSet α) (x : α) : Sided (compare x) s.index.toList := by
  rw [s.index_eq]
  exact Ascending.sided s.ascending x

@[simp] theorem contains_iff {s : OrdSet α} {x : α} : s.contains x = true ↔ x ∈ s := by
  rw [contains, isSome_search (s.sided_index x), s.index_eq]
  simp

instance (s : OrdSet α) (x : α) : Decidable (x ∈ s) := decidable_of_iff _ contains_iff

instance (s : OrdSet α) (p : α → Prop) [DecidablePred p] : Decidable (∀ x ∈ s, p x) :=
  decidable_of_iff (∀ x ∈ s.toList, p x) Iff.rfl

/-! ## Building sets -/

/-- The set whose elements are listed in ascending order. -/
def ofAscending (xs : List α) (h : Ascending xs) : OrdSet α := { toList := xs, ascending := h }

@[simp] theorem mem_ofAscending {xs : List α} {h : Ascending xs} {x : α} :
    x ∈ ofAscending xs h ↔ x ∈ xs := Iff.rfl

instance : EmptyCollection (OrdSet α) := ⟨ofAscending [] .nil⟩

@[simp] theorem not_mem_empty {x : α} : x ∉ (∅ : OrdSet α) := List.not_mem_nil

instance : Inhabited (OrdSet α) := ⟨∅⟩

instance : Singleton α (OrdSet α) := ⟨fun x => ofAscending [x] (List.pairwise_singleton ..)⟩

@[simp] theorem mem_singleton {x y : α} : x ∈ ({y} : OrdSet α) ↔ x = y := List.mem_singleton

instance : Insert α (OrdSet α) :=
  ⟨fun x s => ofAscending (Ascending.insert x s.toList) (Ascending.pairwise_insert s.ascending)⟩

@[simp] theorem mem_insert {x y : α} {s : OrdSet α} : x ∈ insert y s ↔ x = y ∨ x ∈ s :=
  Ascending.mem_insert

/-- The elements of `xs`, on top of those of `s`. -/
def insertAll (xs : List α) (s : OrdSet α) : OrdSet α :=
  ofAscending (Ascending.insertAll xs s.toList) (Ascending.pairwise_insertAll s.ascending)

@[simp] theorem mem_insertAll {x : α} {s : OrdSet α} {xs : List α} :
    x ∈ insertAll xs s ↔ x ∈ xs ∨ x ∈ s := Ascending.mem_insertAll

/-- The elements of a list. -/
def ofList (xs : List α) : OrdSet α := insertAll xs ∅

@[simp] theorem mem_ofList {x : α} {xs : List α} : x ∈ ofList xs ↔ x ∈ xs := by simp [ofList]

instance : Union (OrdSet α) := ⟨fun s t => insertAll s.toList t⟩

@[simp] theorem mem_union {x : α} {s t : OrdSet α} : x ∈ s ∪ t ↔ x ∈ s ∨ x ∈ t := mem_insertAll

theorem forall_mem_union {p : α → Prop} {s t : OrdSet α} :
    (∀ x ∈ s ∪ t, p x) ↔ (∀ x ∈ s, p x) ∧ ∀ x ∈ t, p x := by
  simp only [mem_union, or_imp, forall_and]

/-- The elements that pass a test. -/
def filter (p : α → Bool) (s : OrdSet α) : OrdSet α :=
  ofAscending (s.toList.filter p) (s.ascending.sublist List.filter_sublist)

@[simp] theorem mem_filter {p : α → Bool} {x : α} {s : OrdSet α} :
    x ∈ s.filter p ↔ x ∈ s ∧ p x = true := List.mem_filter

instance : SDiff (OrdSet α) := ⟨fun s t => s.filter fun x => !t.contains x⟩

@[simp] theorem mem_sdiff {x : α} {s t : OrdSet α} : x ∈ s \ t ↔ x ∈ s ∧ x ∉ t := by
  have : (x ∈ s \ t) = (x ∈ s.filter fun x => !t.contains x) := rfl
  simp only [this, mem_filter, Bool.not_eq_true', ← Bool.not_eq_true, contains_iff]

/-- The images of the elements. -/
def map (f : α → β) (s : OrdSet α) : OrdSet β := ofList (s.toList.map f)

@[simp] theorem mem_map {f : α → β} {s : OrdSet α} {y : β} :
    y ∈ s.map f ↔ ∃ x ∈ s, f x = y := by simp [map]

/-- The images of the elements that have one. -/
def filterMap (f : α → Option β) (s : OrdSet α) : OrdSet β := ofList (s.toList.filterMap f)

@[simp] theorem mem_filterMap {f : α → Option β} {s : OrdSet α} {y : β} :
    y ∈ s.filterMap f ↔ ∃ x ∈ s, f x = some y := by simp [filterMap]

/-- The pairs of an element of one set and an element of another. -/
def product (s : OrdSet α) (t : OrdSet β) : OrdSet (α × β) :=
  ofList (s.toList.flatMap fun x => t.toList.map fun y => (x, y))

@[simp] theorem mem_product {s : OrdSet α} {t : OrdSet β} {p : α × β} :
    p ∈ s.product t ↔ p.1 ∈ s ∧ p.2 ∈ t := by
  simp only [product, mem_ofList, List.mem_flatMap, List.mem_map, mem_toList]
  exact ⟨fun ⟨_, hx, _, hy, he⟩ => he ▸ ⟨hx, hy⟩, fun ⟨hx, hy⟩ => ⟨p.1, hx, p.2, hy, rfl⟩⟩

/-! ## Comparing sets -/

instance : HasSubset (OrdSet α) := ⟨fun s t => ∀ x ∈ s, x ∈ t⟩

theorem subset_def {s t : OrdSet α} : s ⊆ t ↔ ∀ x ∈ s, x ∈ t := Iff.rfl

instance (s t : OrdSet α) : Decidable (s ⊆ t) := inferInstanceAs (Decidable (∀ x ∈ s, x ∈ t))

/-- Whether two sets have an element in common. -/
def meets (s t : OrdSet α) : Bool := s.toList.any t.contains

@[simp] theorem meets_iff {s t : OrdSet α} : s.meets t = true ↔ ∃ x ∈ s, x ∈ t := by simp [meets]

/-- Sets are ordered by their ascending elements; a proper beginning comes first. -/
instance : Ordered (OrdSet α) := Ordered.ofKey toList fun _ _ => toList_injective

end OrdSet

end FiniteAutomata
