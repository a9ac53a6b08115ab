import FiniteAutomata.OrdSet.Basic

/-!
# Saturation — everything reachable from a finite set, in rounds

A `Successors α` lists the successors of an element and, once for all, finitely many elements among
which all successors are found.  `Successors.saturation` starts from a set and in each round adds
the successors of the elements the previous round added, until a round adds nothing.  The round
that adds nothing is counted too, so the closure of the empty set takes one round.

`closure_closed` and `subset_closure` say that the result is closed and contains the start,
`mem_closure` that it holds what some number of steps reaches and nothing else.
-/

namespace FiniteAutomata

/-- A successor relation with finitely many targets. -/
structure Successors (α : Type) where
  next : α → List α
  targets : List α
  next_subset : ∀ x, ∀ y ∈ next x, y ∈ targets

/-- What saturation found, and how many rounds it took. -/
structure Saturation (α : Type) [Ordered α] where
  elements : OrdSet α
  rounds : Nat

namespace Successors

variable {α : Type} [Ordered α]

/-- The successors of `fresh` that are not in `seen`. -/
def beyond (g : Successors α) (seen fresh : OrdSet α) : OrdSet α :=
  .ofList ((fresh.toList.flatMap g.next).filter fun y => !seen.contains y)

theorem mem_beyond {g : Successors α} {seen fresh : OrdSet α} {y : α} :
    y ∈ g.beyond seen fresh ↔ (∃ x ∈ fresh, y ∈ g.next x) ∧ y ∉ seen := by
  simp only [beyond, OrdSet.mem_ofList, List.mem_filter, List.mem_flatMap, OrdSet.mem_toList,
    Bool.not_eq_true', ← Bool.not_eq_true, OrdSet.contains_iff]

/-- The targets that are still missing. -/
def missing (g : Successors α) (seen : OrdSet α) : List α :=
  g.targets.filter fun y => !seen.contains y

theorem length_missing_lt {g : Successors α} {seen fresh : OrdSet α} {y : α}
    (hy : y ∈ g.beyond seen fresh) :
    (g.missing (g.beyond seen fresh ∪ seen)).length < (g.missing seen).length := by
  obtain ⟨⟨x, _, hxy⟩, hseen⟩ := mem_beyond.1 hy
  have hsub : g.missing (g.beyond seen fresh ∪ seen)
      = (g.missing seen).filter fun z => !(g.beyond seen fresh).contains z := by
    simp only [missing, List.filter_filter]
    refine List.filter_congr fun z _ => Bool.eq_iff_iff.2 ?_
    simp only [Bool.not_eq_true', ← Bool.not_eq_true, OrdSet.contains_iff, OrdSet.mem_union,
      Bool.and_eq_true, not_or]
  rw [hsub, List.length_filter_lt_length_iff_exists]
  exact ⟨y, by simpa [missing, ← Bool.not_eq_true, hseen] using g.next_subset x y hxy,
    by simpa using hy⟩

/-- Adds the successors of `fresh` to `seen`, then theirs, until nothing is new. -/
def saturateFrom (g : Successors α) (seen fresh : OrdSet α) (rounds : Nat) : Saturation α :=
  let new := g.beyond seen fresh
  if new.toList = [] then ⟨seen, rounds⟩ else saturateFrom g (new ∪ seen) new (rounds + 1)
termination_by (g.missing seen).length
decreasing_by
  obtain ⟨y, hy⟩ := List.exists_mem_of_ne_nil _ ‹_›
  exact length_missing_lt hy

/-- Everything reachable from `start`, with the number of rounds. -/
def saturation (g : Successors α) (start : OrdSet α) : Saturation α :=
  g.saturateFrom start start 1

/-- Everything reachable from `start`. -/
def closure (g : Successors α) (start : OrdSet α) : OrdSet α := (g.saturation start).elements

/-! ## The closure is closed -/

/-- What is known between two rounds: what is fresh has been seen, and so have the successors of
whatever has been seen and is not fresh. -/
structure Explored (g : Successors α) (seen fresh : OrdSet α) : Prop where
  fresh_subset : fresh ⊆ seen
  next_mem : ∀ x ∈ seen, x ∉ fresh → ∀ y ∈ g.next x, y ∈ seen

namespace Explored

variable {g : Successors α} {seen fresh : OrdSet α}

theorem self (g : Successors α) (s : OrdSet α) : Explored g s s :=
  ⟨fun _ hx => hx, fun _ hx hxs => absurd hx hxs⟩

/-- After a round the successors of all that was seen are seen. -/
theorem mem_union (h : Explored g seen fresh) {x y : α} (hx : x ∈ seen) (hy : y ∈ g.next x) :
    y ∈ g.beyond seen fresh ∪ seen := by
  rw [OrdSet.mem_union]
  by_cases hys : y ∈ seen
  · exact .inr hys
  · by_cases hxf : x ∈ fresh
    · exact .inl (mem_beyond.2 ⟨⟨x, hxf, hy⟩, hys⟩)
    · exact .inr (h.next_mem x hx hxf y hy)

/-- **A round keeps what is known.** -/
theorem round (h : Explored g seen fresh) :
    Explored g (g.beyond seen fresh ∪ seen) (g.beyond seen fresh) where
  fresh_subset _ hx := OrdSet.mem_union.2 (.inl hx)
  next_mem _ hx hxn _ hy := h.mem_union ((OrdSet.mem_union.1 hx).resolve_left hxn) hy

end Explored

theorem saturateFrom_closed {g : Successors α} {seen fresh : OrdSet α} (h : Explored g seen fresh)
    (rounds : Nat) :
    seen ⊆ (g.saturateFrom seen fresh rounds).elements ∧
      ∀ x ∈ (g.saturateFrom seen fresh rounds).elements,
        ∀ y ∈ g.next x, y ∈ (g.saturateFrom seen fresh rounds).elements := by
  fun_induction saturateFrom g seen fresh rounds with
  | case1 seen fresh rounds new hnil =>
    have hnone : ∀ y, y ∉ new := by
      intro y
      rw [OrdSet.mem_def, hnil]
      exact List.not_mem_nil
    exact ⟨fun _ hx => hx,
      fun _ hx y hy => (OrdSet.mem_union.1 (h.mem_union hx hy)).resolve_left (hnone y)⟩
  | case2 seen fresh rounds new _ ih =>
    obtain ⟨hsub, hclosed⟩ := ih h.round
    exact ⟨fun x hx => hsub x (OrdSet.mem_union.2 (.inr hx)), hclosed⟩

theorem subset_closure (g : Successors α) (start : OrdSet α) : start ⊆ g.closure start :=
  (saturateFrom_closed (.self g start) 1).1

/-- **The closure is closed under successors.** -/
theorem closure_closed (g : Successors α) (start : OrdSet α) {x y : α}
    (hx : x ∈ g.closure start) (hy : y ∈ g.next x) : y ∈ g.closure start :=
  (saturateFrom_closed (.self g start) 1).2 x hx y hy

/-- Whatever holds of the start and is handed on to successors holds of everything found. -/
theorem saturateFrom_induction {g : Successors α} {P : α → Prop}
    (hnext : ∀ x, P x → ∀ y ∈ g.next x, P y) (seen fresh : OrdSet α) (rounds : Nat)
    (hfresh : fresh ⊆ seen) (hseen : ∀ x ∈ seen, P x) :
    ∀ x ∈ (g.saturateFrom seen fresh rounds).elements, P x := by
  fun_induction saturateFrom g seen fresh rounds with
  | case1 => exact hseen
  | case2 seen fresh rounds new _ ih =>
    refine ih (fun x hx => OrdSet.mem_union.2 (.inl hx)) fun y hy => ?_
    rcases OrdSet.mem_union.1 hy with hy | hy
    · obtain ⟨⟨x, hx, hxy⟩, -⟩ := mem_beyond.1 hy
      exact hnext x (hseen x (hfresh x hx)) y hxy
    · exact hseen y hy

theorem closure_induction {g : Successors α} {P : α → Prop} {start : OrdSet α}
    (hstart : ∀ x ∈ start, P x) (hnext : ∀ x, P x → ∀ y ∈ g.next x, P y) :
    ∀ x ∈ g.closure start, P x :=
  saturateFrom_induction hnext start start 1 (fun _ h => h) hstart

/-! ## Distance -/

/-- `Distance g start n x`: some chain of `n` successors leads from `start` to `x`. -/
inductive Distance (g : Successors α) (start : OrdSet α) : Nat → α → Prop
  | start {x : α} : x ∈ start → Distance g start 0 x
  | step {n : Nat} {x y : α} : Distance g start n x → y ∈ g.next x → Distance g start (n + 1) y

/-- **The closure holds exactly what some number of steps reaches.** -/
theorem mem_closure {g : Successors α} {start : OrdSet α} {x : α} :
    x ∈ g.closure start ↔ ∃ n, Distance g start n x := by
  constructor
  · have hstart : ∀ y ∈ start, ∃ n, Distance g start n y := fun y hy => ⟨0, .start hy⟩
    exact closure_induction hstart (fun y ⟨n, hn⟩ z hz => ⟨n + 1, .step hn hz⟩) x
  · rintro ⟨n, hn⟩
    induction hn with
    | start hx => exact subset_closure g start _ hx
    | step _ hy ih => exact closure_closed g start ih hy

end Successors

end FiniteAutomata
