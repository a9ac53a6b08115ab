/-!
# Traversal — a value at every element of a list, or nothing

`List.mapM` into `Option` gives the list of all values, and nothing if one is missing.  The values
are those of the elements (`mem_of_mapM`), in the same order (`pairwise_of_mapM`).
-/

namespace FiniteAutomata

variable {β γ : Type} {f : β → Option γ}

/-- The first element has a value, and so have the others. -/
theorem mapM_cons_eq_some {x : β} {xs : List β} {zs : List γ} :
    (x :: xs).mapM f = some zs ↔ ∃ y ys, f x = some y ∧ xs.mapM f = some ys ∧ zs = y :: ys := by
  rw [List.mapM_cons]
  constructor
  · intro h
    obtain ⟨y, hy, h⟩ := Option.bind_eq_some_iff.1 h
    obtain ⟨ys, hys, h⟩ := Option.bind_eq_some_iff.1 h
    exact ⟨y, ys, hy, hys, (Option.some.inj h).symm⟩
  · rintro ⟨y, ys, hy, hys, rfl⟩
    rw [hy, hys]
    rfl

/-- A function with a value at every element of a list gives a value on the whole list. -/
theorem isSome_mapM : ∀ {xs : List β}, (∀ x ∈ xs, (f x).isSome) → (xs.mapM f).isSome
  | [], _ => rfl
  | x :: xs, h => by
    obtain ⟨y, hy⟩ := Option.isSome_iff_exists.1 (h x (List.mem_cons_self ..))
    obtain ⟨ys, hys⟩ := Option.isSome_iff_exists.1
      (isSome_mapM fun z hz => h z (List.mem_cons_of_mem x hz))
    rw [mapM_cons_eq_some.2 ⟨y, ys, hy, hys, rfl⟩]
    rfl

/-- A value on the whole list is made of one at every element. -/
theorem isSome_of_mapM {xs : List β} {ys : List γ} (h : xs.mapM f = some ys) {x : β}
    (hx : x ∈ xs) : (f x).isSome := by
  induction xs generalizing ys with
  | nil => exact absurd hx List.not_mem_nil
  | cons x' xs ih =>
    obtain ⟨y, ys, hy, hys, rfl⟩ := mapM_cons_eq_some.1 h
    rcases List.mem_cons.1 hx with rfl | hx
    · rw [hy]
      rfl
    · exact ih hys hx

/-- **There is a value on the whole list exactly if there is one at every element.** -/
theorem isSome_mapM_iff {xs : List β} : (xs.mapM f).isSome ↔ ∀ x ∈ xs, (f x).isSome := by
  refine ⟨?_, isSome_mapM⟩
  intro h x hx
  obtain ⟨ys, hys⟩ := Option.isSome_iff_exists.1 h
  exact isSome_of_mapM hys hx

/-- **The values are those of the elements.** -/
theorem mem_of_mapM {xs : List β} {ys : List γ} (h : xs.mapM f = some ys) {y : γ} :
    y ∈ ys ↔ ∃ x ∈ xs, f x = some y := by
  induction xs generalizing ys with
  | nil =>
    obtain rfl := Option.some.inj h
    simp
  | cons x xs ih =>
    obtain ⟨z, zs, hz, hzs, rfl⟩ := mapM_cons_eq_some.1 h
    have hyz : f x = some y ↔ y = z := by rw [hz, Option.some.injEq, eq_comm]
    simp only [List.mem_cons, exists_eq_or_imp, hyz, ih hzs]

/-- Values stand to one another as their elements do. -/
theorem pairwise_of_mapM {R : β → β → Prop} {S : γ → γ → Prop}
    (hRS : ∀ {x x' y y'}, R x x' → f x = some y → f x' = some y' → S y y') {xs : List β}
    {ys : List γ} (hxs : xs.Pairwise R) (h : xs.mapM f = some ys) : ys.Pairwise S := by
  induction hxs generalizing ys with
  | nil =>
    obtain rfl := Option.some.inj h
    exact .nil
  | cons hx _ ih =>
    obtain ⟨z, zs, hz, hzs, rfl⟩ := mapM_cons_eq_some.1 h
    refine List.pairwise_cons.2 ⟨fun y hy => ?_, ih hzs⟩
    obtain ⟨x', hx', hy⟩ := (mem_of_mapM hzs).1 hy
    exact hRS (hx x' hx') hz hy

end FiniteAutomata
