import FiniteAutomata.Nfa.Combine
import FiniteAutomata.Proofs.Nfa.Acceptance

/-!
# Proofs/Nfa/Combination — what union, concatenation and iteration recognize

For each combinator the edges are sorted by the state they leave, and a path of the combined
automaton is cut where it passes from one operand to the next.  Nothing is asked of the operands:
edges may lead into their starts and out of their accepting states, and silent edges may form
cycles.
-/

namespace FiniteAutomata.Nfa

variable {σ τ α : Type} [Ordered σ] [Ordered τ] [Ordered α]

/-! ## Operands inside a larger automaton -/

/-- If every edge has its image, so has every path. -/
theorem Path.embed {n : Nfa σ α} {m : Nfa τ α} (f : σ → τ)
    (hedge : ∀ {p q : σ} {a : Option α}, ⟨p, q, a⟩ ∈ n.transitions → ⟨f p, f q, a⟩ ∈ m.transitions)
    {p q : σ} {w : List α} (h : n.Path p w q) : m.Path (f p) w (f q) := by
  obtain ⟨_, rfl, hpath⟩ := h.simulate (m := m) (R := fun p i => i = f p)
    (fun ht hi => ⟨_, rfl, hi ▸ hedge ht⟩) rfl
  exact hpath

/-- If images are left only along images of edges, so are they along paths. -/
theorem Path.restrict {n : Nfa σ α} {m : Nfa τ α} (f : σ → τ)
    (hedge : ∀ {p : σ} {j : τ} {a : Option α}, ⟨f p, j, a⟩ ∈ m.transitions →
      ∃ q, j = f q ∧ ⟨p, q, a⟩ ∈ n.transitions)
    {p : σ} {j : τ} {w : List α} (h : m.Path (f p) w j) : ∃ q, j = f q ∧ n.Path p w q :=
  h.simulate (m := n) (R := fun i p => i = f p) (fun ht hi => hedge (hi ▸ ht)) rfl

omit [Ordered τ] in
/-- The images of edges. -/
theorem mem_map_transitions {n : Nfa σ α} {f : σ → τ} {i j : τ} {a : Option α} :
    (∃ t ∈ n.transitions, t.map f = ⟨i, j, a⟩) ↔
      ∃ p q, i = f p ∧ j = f q ∧ ⟨p, q, a⟩ ∈ n.transitions := by
  refine ⟨?_, ?_⟩
  · rintro ⟨⟨p, q, b⟩, ht, he⟩
    obtain ⟨rfl, rfl, rfl⟩ := Transition.mk.inj he
    exact ⟨p, q, rfl, rfl, ht⟩
  · rintro ⟨p, q, hp, hq, ht⟩
    refine ⟨⟨p, q, a⟩, ht, ?_⟩
    rw [hp, hq]
    rfl

/-- Validity does not depend on the names of the states; states may even share one. -/
theorem valid_mapStates {n : Nfa σ α} (f : σ → τ) (hn : n.Valid) : (n.mapStates f).Valid := by
  have hmem : ∀ p ∈ n.states, f p ∈ n.states.map f := fun p hp => OrdSet.mem_map.2 ⟨p, hp, rfl⟩
  refine ⟨hmem _ hn.1, ?_, ?_⟩
  · intro t' ht'
    obtain ⟨t, ht, rfl⟩ := OrdSet.mem_map.1 ht'
    obtain ⟨hsource, htarget, hlabel⟩ := hn.2.1 t ht
    exact ⟨hmem _ hsource, hmem _ htarget, hlabel⟩
  · intro q hq
    obtain ⟨p, hp, rfl⟩ := OrdSet.mem_map.1 hq
    exact hmem p (hn.2.2 p hp)

/-! ## Union -/

section Union

variable {n : Nfa σ α} {m : Nfa τ α} {k : Nfa (UnionState σ τ) α}

theorem exists_union? (h : n.alphabet = m.alphabet) : ∃ k, n.union? m = some k :=
  ⟨_, if_pos h⟩

theorem isSome_union?_iff : (n.union? m).isSome ↔ n.alphabet = m.alphabet := Option.isSome_ite

variable (hk : n.union? m = some k)

include hk

theorem alphabet_union? : n.alphabet = m.alphabet ∧ k.alphabet = n.alphabet := by
  obtain ⟨halph, hk⟩ := Option.ite_none_right_eq_some.1 hk
  obtain rfl := Option.some.inj hk
  exact ⟨halph, rfl⟩

theorem start_union? : k.start = .start := by
  obtain ⟨_, hk⟩ := Option.ite_none_right_eq_some.1 hk
  obtain rfl := Option.some.inj hk
  rfl

theorem mem_union?_states {q : UnionState σ τ} : q ∈ k.states ↔
    q = .start ∨ (∃ p ∈ n.states, .left p = q) ∨ ∃ p ∈ m.states, .right p = q := by
  obtain ⟨_, hk⟩ := Option.ite_none_right_eq_some.1 hk
  obtain rfl := Option.some.inj hk
  simp [mapStates]

theorem mem_union?_accepting {q : UnionState σ τ} : q ∈ k.accepting ↔
    (∃ p ∈ n.accepting, .left p = q) ∨ ∃ p ∈ m.accepting, .right p = q := by
  obtain ⟨_, hk⟩ := Option.ite_none_right_eq_some.1 hk
  obtain rfl := Option.some.inj hk
  simp [mapStates]

/-- The edges of the operands, and two silent ones out of the fresh start. -/
theorem mem_union?_transitions {p q : UnionState σ τ} {a : Option α} :
    ⟨p, q, a⟩ ∈ k.transitions ↔
      (p = .start ∧ a = none ∧ (q = .left n.start ∨ q = .right m.start)) ∨
      (∃ p' q', p = .left p' ∧ q = .left q' ∧ ⟨p', q', a⟩ ∈ n.transitions) ∨
      ∃ p' q', p = .right p' ∧ q = .right q' ∧ ⟨p', q', a⟩ ∈ m.transitions := by
  obtain ⟨_, hk⟩ := Option.ite_none_right_eq_some.1 hk
  obtain rfl := Option.some.inj hk
  simp only [mapStates, OrdSet.mem_insert, OrdSet.mem_union, OrdSet.mem_map, mem_map_transitions,
    Transition.silent, Transition.mk.injEq]
  grind

/-- The fresh start is left silently for the starts of the operands. -/
theorem union?_edge_start {q : UnionState σ τ} {a : Option α} :
    ⟨.start, q, a⟩ ∈ k.transitions ↔ a = none ∧ (q = .left n.start ∨ q = .right m.start) := by
  simp [mem_union?_transitions hk]

/-- A state of the left operand is left along its own edges. -/
theorem union?_edge_left {p : σ} {q : UnionState σ τ} {a : Option α} :
    ⟨.left p, q, a⟩ ∈ k.transitions ↔ ∃ q', q = .left q' ∧ ⟨p, q', a⟩ ∈ n.transitions := by
  simp [mem_union?_transitions hk]

/-- A state of the right operand is left along its own edges. -/
theorem union?_edge_right {p : τ} {q : UnionState σ τ} {a : Option α} :
    ⟨.right p, q, a⟩ ∈ k.transitions ↔ ∃ q', q = .right q' ∧ ⟨p, q', a⟩ ∈ m.transitions := by
  simp [mem_union?_transitions hk]

/-- **A union recognizes what either operand recognizes.** -/
theorem recognizes_union? {w : List α} :
    k.Recognizes w ↔ n.Recognizes w ∨ m.Recognizes w := by
  refine ⟨?_, ?_⟩
  · rintro ⟨r, hr, hpath⟩
    rw [start_union? hk] at hpath
    -- the fresh start is not accepting, so the path leaves it, silently
    rcases hpath with _ | ⟨ht, hpath⟩ | ⟨ht, _⟩
    · simp [mem_union?_accepting hk] at hr
    · obtain ⟨_, rfl | rfl⟩ := (union?_edge_start hk).1 ht
      · obtain ⟨q, rfl, hq⟩ := hpath.restrict UnionState.left (union?_edge_left hk).1
        exact .inl ⟨q, by simpa [mem_union?_accepting hk] using hr, hq⟩
      · obtain ⟨q, rfl, hq⟩ := hpath.restrict UnionState.right (union?_edge_right hk).1
        exact .inr ⟨q, by simpa [mem_union?_accepting hk] using hr, hq⟩
    · simpa using ((union?_edge_start hk).1 ht).1
  · intro h
    have hleft : .silent .start (.left n.start) ∈ k.transitions :=
      (union?_edge_start hk).2 ⟨rfl, .inl rfl⟩
    have hright : .silent .start (.right m.start) ∈ k.transitions :=
      (union?_edge_start hk).2 ⟨rfl, .inr rfl⟩
    rw [Recognizes, start_union? hk]
    rcases h with ⟨q, hq, hpath⟩ | ⟨q, hq, hpath⟩
    · have hacc : .left q ∈ k.accepting := (mem_union?_accepting hk).2 (.inl ⟨q, hq, rfl⟩)
      have hinner : k.Path (.left n.start) w (.left q) :=
        hpath.embed UnionState.left fun ht => (union?_edge_left hk).2 ⟨_, rfl, ht⟩
      exact ⟨.left q, hacc, .silent hleft hinner⟩
    · have hacc : .right q ∈ k.accepting := (mem_union?_accepting hk).2 (.inr ⟨q, hq, rfl⟩)
      have hinner : k.Path (.right m.start) w (.right q) :=
        hpath.embed UnionState.right fun ht => (union?_edge_right hk).2 ⟨_, rfl, ht⟩
      exact ⟨.right q, hacc, .silent hright hinner⟩

/-- A union of valid automata is valid. -/
theorem valid_union? (hn : n.Valid) (hm : m.Valid) : k.Valid := by
  obtain ⟨halph, hkalph⟩ := alphabet_union? hk
  have hstart : .start ∈ k.states := (mem_union?_states hk).2 (.inl rfl)
  have hleft : ∀ p ∈ n.states, .left p ∈ k.states :=
    fun p hp => (mem_union?_states hk).2 (.inr (.inl ⟨p, hp, rfl⟩))
  have hright : ∀ p ∈ m.states, .right p ∈ k.states :=
    fun p hp => (mem_union?_states hk).2 (.inr (.inr ⟨p, hp, rfl⟩))
  refine ⟨?_, ?_, ?_⟩
  · rwa [start_union? hk]
  · rintro ⟨p, q, a⟩ ht
    rw [hkalph]
    rcases (mem_union?_transitions hk).1 ht with
      ⟨rfl, rfl, rfl | rfl⟩ | ⟨p, q, rfl, rfl, hpq⟩ | ⟨p, q, rfl, rfl, hpq⟩
    · exact ⟨hstart, hleft _ hn.1, fun c hc => nomatch hc⟩
    · exact ⟨hstart, hright _ hm.1, fun c hc => nomatch hc⟩
    · obtain ⟨hp, hq, ha⟩ := hn.2.1 _ hpq
      exact ⟨hleft p hp, hleft q hq, ha⟩
    · obtain ⟨hp, hq, ha⟩ := hm.2.1 _ hpq
      exact ⟨hright p hp, hright q hq, halph ▸ ha⟩
  · intro q hq
    rcases (mem_union?_accepting hk).1 hq with ⟨p, hp, rfl⟩ | ⟨p, hp, rfl⟩
    · exact hleft p (hn.2.2 p hp)
    · exact hright p (hm.2.2 p hp)

end Union

/-! ## Concatenation -/

section Concat

variable {n : Nfa σ α} {m : Nfa τ α} {k : Nfa (ConcatState σ τ) α}

theorem exists_concat? (h : n.alphabet = m.alphabet) : ∃ k, n.concat? m = some k :=
  ⟨_, if_pos h⟩

theorem isSome_concat?_iff : (n.concat? m).isSome ↔ n.alphabet = m.alphabet := Option.isSome_ite

variable (hk : n.concat? m = some k)

include hk

theorem alphabet_concat? : n.alphabet = m.alphabet ∧ k.alphabet = n.alphabet := by
  obtain ⟨halph, hk⟩ := Option.ite_none_right_eq_some.1 hk
  obtain rfl := Option.some.inj hk
  exact ⟨halph, rfl⟩

theorem start_concat? : k.start = .left n.start := by
  obtain ⟨_, hk⟩ := Option.ite_none_right_eq_some.1 hk
  obtain rfl := Option.some.inj hk
  rfl

theorem mem_concat?_states {q : ConcatState σ τ} : q ∈ k.states ↔
    (∃ p ∈ n.states, .left p = q) ∨ ∃ p ∈ m.states, .right p = q := by
  obtain ⟨_, hk⟩ := Option.ite_none_right_eq_some.1 hk
  obtain rfl := Option.some.inj hk
  simp [mapStates]

theorem mem_concat?_accepting {q : ConcatState σ τ} : q ∈ k.accepting ↔
    ∃ p ∈ m.accepting, .right p = q := by
  obtain ⟨_, hk⟩ := Option.ite_none_right_eq_some.1 hk
  obtain rfl := Option.some.inj hk
  simp [mapStates]

/-- The edges of the operands, and silent ones from the accepting states of the left operand to the
start of the right one. -/
theorem mem_concat?_transitions {p q : ConcatState σ τ} {a : Option α} :
    ⟨p, q, a⟩ ∈ k.transitions ↔
      (∃ p' ∈ n.accepting, p = .left p' ∧ a = none ∧ q = .right m.start) ∨
      (∃ p' q', p = .left p' ∧ q = .left q' ∧ ⟨p', q', a⟩ ∈ n.transitions) ∨
      ∃ p' q', p = .right p' ∧ q = .right q' ∧ ⟨p', q', a⟩ ∈ m.transitions := by
  obtain ⟨_, hk⟩ := Option.ite_none_right_eq_some.1 hk
  obtain rfl := Option.some.inj hk
  simp only [mapStates, OrdSet.mem_union, OrdSet.mem_map, mem_map_transitions, Transition.silent,
    Transition.mk.injEq]
  grind

/-- A state of the left operand is left along its own edges, or for the right operand. -/
theorem concat?_edge_left {p : σ} {q : ConcatState σ τ} {a : Option α} :
    ⟨.left p, q, a⟩ ∈ k.transitions ↔ (∃ q', q = .left q' ∧ ⟨p, q', a⟩ ∈ n.transitions) ∨
      (p ∈ n.accepting ∧ a = none ∧ q = .right m.start) := by
  rw [mem_concat?_transitions hk]
  grind

/-- A state of the right operand is left along its own edges. -/
theorem concat?_edge_right {p : τ} {q : ConcatState σ τ} {a : Option α} :
    ⟨.right p, q, a⟩ ∈ k.transitions ↔ ∃ q', q = .right q' ∧ ⟨p, q', a⟩ ∈ m.transitions := by
  simp [mem_concat?_transitions hk]

/-- A path from the left operand to the right one passes from an accepting state to the start. -/
theorem concat?_path_left {p : σ} {r : τ} {w : List α} (h : k.Path (.left p) w (.right r)) :
    ∃ u v, w = u ++ v ∧ (∃ q ∈ n.accepting, n.Path p u q) ∧ m.Path m.start v r := by
  generalize hs : ConcatState.left p = s at h
  induction h using Path.edgeInduction generalizing p with
  | nil => cases hs
  | edge ht h ih =>
    subst hs
    rcases (concat?_edge_left hk).1 ht with ⟨q, rfl, hq⟩ | ⟨hp, rfl, rfl⟩
    · obtain ⟨u, v, rfl, ⟨r, hr, hpath⟩, hv⟩ := ih rfl
      exact ⟨_, v, (List.append_assoc ..).symm, ⟨r, hr, .edge hq hpath⟩, hv⟩
    · obtain ⟨_, hr, hv⟩ := h.restrict ConcatState.right (concat?_edge_right hk).1
      obtain rfl := ConcatState.right.inj hr
      exact ⟨[], _, rfl, ⟨p, hp, .nil p⟩, hv⟩

/-- **A concatenation recognizes a word of the left operand followed by one of the right.** -/
theorem recognizes_concat? {w : List α} :
    k.Recognizes w ↔ ∃ u v, w = u ++ v ∧ n.Recognizes u ∧ m.Recognizes v := by
  refine ⟨?_, ?_⟩
  · rintro ⟨s, hs, hpath⟩
    obtain ⟨r, hr, rfl⟩ := (mem_concat?_accepting hk).1 hs
    rw [start_concat? hk] at hpath
    obtain ⟨u, v, hw, hu, hv⟩ := concat?_path_left hk hpath
    exact ⟨u, v, hw, hu, r, hr, hv⟩
  · rintro ⟨u, v, hw, ⟨q, hq, hu⟩, r, hr, hv⟩
    have hbridge : .silent (.left q) (.right m.start) ∈ k.transitions :=
      (concat?_edge_left hk).2 (.inr ⟨hq, rfl, rfl⟩)
    have hleft : k.Path (.left n.start) u (.left q) :=
      hu.embed ConcatState.left fun ht => (concat?_edge_left hk).2 (.inl ⟨_, rfl, ht⟩)
    have hright : k.Path (.right m.start) v (.right r) :=
      hv.embed ConcatState.right fun ht => (concat?_edge_right hk).2 ⟨_, rfl, ht⟩
    refine ⟨.right r, (mem_concat?_accepting hk).2 ⟨r, hr, rfl⟩, ?_⟩
    rw [start_concat? hk, hw]
    exact hleft.append (.silent hbridge hright)

/-- A concatenation of valid automata is valid. -/
theorem valid_concat? (hn : n.Valid) (hm : m.Valid) : k.Valid := by
  obtain ⟨halph, hkalph⟩ := alphabet_concat? hk
  have hleft : ∀ p ∈ n.states, .left p ∈ k.states :=
    fun p hp => (mem_concat?_states hk).2 (.inl ⟨p, hp, rfl⟩)
  have hright : ∀ p ∈ m.states, .right p ∈ k.states :=
    fun p hp => (mem_concat?_states hk).2 (.inr ⟨p, hp, rfl⟩)
  refine ⟨?_, ?_, ?_⟩
  · rw [start_concat? hk]
    exact hleft _ hn.1
  · rintro ⟨p, q, a⟩ ht
    rw [hkalph]
    rcases (mem_concat?_transitions hk).1 ht with
      ⟨p, hp, rfl, rfl, rfl⟩ | ⟨p, q, rfl, rfl, hpq⟩ | ⟨p, q, rfl, rfl, hpq⟩
    · exact ⟨hleft p (hn.2.2 p hp), hright _ hm.1, fun c hc => nomatch hc⟩
    · obtain ⟨hp, hq, ha⟩ := hn.2.1 _ hpq
      exact ⟨hleft p hp, hleft q hq, ha⟩
    · obtain ⟨hp, hq, ha⟩ := hm.2.1 _ hpq
      exact ⟨hright p hp, hright q hq, halph ▸ ha⟩
  · intro q hq
    obtain ⟨p, hp, rfl⟩ := (mem_concat?_accepting hk).1 hq
    exact hright p (hm.2.2 p hp)

end Concat

/-! ## Iteration -/

section Star

variable {n : Nfa σ α}

theorem mem_star_states {q : StarState σ} :
    q ∈ n.star.states ↔ q = .start ∨ ∃ p ∈ n.states, .inner p = q := by
  simp [star, mapStates]

theorem mem_star_accepting {q : StarState σ} :
    q ∈ n.star.accepting ↔ q = .start ∨ ∃ p ∈ n.accepting, .inner p = q := by
  simp [star, mapStates]

/-- The edges of the operand, and silent ones from the accepting states to its start. -/
theorem mem_star_transitions {p q : StarState σ} {a : Option α} :
    ⟨p, q, a⟩ ∈ n.star.transitions ↔
      (p ∈ n.star.accepting ∧ a = none ∧ q = .inner n.start) ∨
      ∃ p' q', p = .inner p' ∧ q = .inner q' ∧ ⟨p', q', a⟩ ∈ n.transitions := by
  simp only [star, mapStates, OrdSet.mem_insert, OrdSet.mem_union, OrdSet.mem_map,
    mem_map_transitions, Transition.silent, Transition.mk.injEq]
  grind

/-- A path from the operand to an accepting state is cut into words at the accepting states from
which it starts again. -/
theorem star_path_inner {p : σ} {r : StarState σ} {w : List α} (hr : r ∈ n.star.accepting)
    (h : n.star.Path (.inner p) w r) : ∃ (u : List α) (ws : List (List α)),
      w = u ++ ws.flatten ∧ (∃ q ∈ n.accepting, n.Path p u q) ∧ ∀ v ∈ ws, n.Recognizes v := by
  generalize hs : StarState.inner p = s at h
  induction h using Path.edgeInduction generalizing p with
  | nil =>
    subst hs
    obtain ⟨q, hq, rfl⟩ : ∃ q ∈ n.accepting, q = p := by simpa [mem_star_accepting] using hr
    exact ⟨[], [], rfl, ⟨q, hq, .nil q⟩, fun v hv => nomatch hv⟩
  | edge ht h ih =>
    subst hs
    rcases mem_star_transitions.1 ht with ⟨hp, rfl, rfl⟩ | ⟨p', q, hp, rfl, hq⟩
    · obtain ⟨q, hq, rfl⟩ : ∃ q ∈ n.accepting, q = p := by simpa [mem_star_accepting] using hp
      obtain ⟨u, ws, rfl, hu, hws⟩ := ih rfl
      exact ⟨[], u :: ws, rfl, ⟨q, hq, .nil q⟩, List.forall_mem_cons.2 ⟨hu, hws⟩⟩
    · obtain rfl := StarState.inner.inj hp
      obtain ⟨u, ws, rfl, ⟨r, hr, hpath⟩, hws⟩ := ih rfl
      exact ⟨_, ws, (List.append_assoc ..).symm, ⟨r, hr, .edge hq hpath⟩, hws⟩

/-- From an accepting state any number of words lead to one again. -/
theorem star_path_flatten {ws : List (List α)} (hws : ∀ u ∈ ws, n.Recognizes u) {p : StarState σ}
    (hp : p ∈ n.star.accepting) : ∃ r ∈ n.star.accepting, n.star.Path p ws.flatten r := by
  induction ws generalizing p with
  | nil => exact ⟨p, hp, .nil p⟩
  | cons u ws ih =>
    obtain ⟨⟨q, hq, hu⟩, hws⟩ := List.forall_mem_cons.1 hws
    have hback : .silent p (.inner n.start) ∈ n.star.transitions :=
      mem_star_transitions.2 (.inl ⟨hp, rfl, rfl⟩)
    have hinner : n.star.Path (.inner n.start) u (.inner q) :=
      hu.embed StarState.inner fun ht => mem_star_transitions.2 (.inr ⟨_, _, rfl, rfl, ht⟩)
    obtain ⟨r, hr, hrest⟩ := ih hws (mem_star_accepting.2 (.inr ⟨q, hq, rfl⟩))
    exact ⟨r, hr, .silent hback (hinner.append hrest)⟩

/-- **An iteration recognizes any number of words of the operand in a row.** -/
theorem recognizes_star {w : List α} :
    n.star.Recognizes w ↔ ∃ ws : List (List α), w = ws.flatten ∧ ∀ u ∈ ws, n.Recognizes u := by
  refine ⟨?_, ?_⟩
  · rintro ⟨r, hr, hpath⟩
    rcases hpath with _ | ⟨ht, hpath⟩ | ⟨ht, _⟩
    · exact ⟨[], rfl, fun u hu => nomatch hu⟩
    · rcases mem_star_transitions.1 ht with ⟨_, _, rfl⟩ | ⟨_, _, hstart, _⟩
      · obtain ⟨u, ws, rfl, hu, hws⟩ := star_path_inner hr hpath
        exact ⟨u :: ws, rfl, List.forall_mem_cons.2 ⟨hu, hws⟩⟩
      · cases hstart
    · rcases mem_star_transitions.1 ht with ⟨_, hlabel, _⟩ | ⟨_, _, hstart, _⟩
      · cases hlabel
      · cases hstart
  · rintro ⟨ws, hw, hws⟩
    rw [hw]
    exact star_path_flatten hws (mem_star_accepting.2 (.inl rfl))

/-- An iteration of a valid automaton is valid. -/
theorem valid_star (hn : n.Valid) : n.star.Valid := by
  have hstart : .start ∈ n.star.states := mem_star_states.2 (.inl rfl)
  have hinner : ∀ p ∈ n.states, .inner p ∈ n.star.states :=
    fun p hp => mem_star_states.2 (.inr ⟨p, hp, rfl⟩)
  have haccepting : n.star.accepting ⊆ n.star.states := by
    intro q hq
    rcases mem_star_accepting.1 hq with rfl | ⟨p, hp, rfl⟩
    · exact hstart
    · exact hinner p (hn.2.2 p hp)
  refine ⟨hstart, ?_, haccepting⟩
  rintro ⟨p, q, a⟩ ht
  rcases mem_star_transitions.1 ht with ⟨hp, rfl, rfl⟩ | ⟨p, q, rfl, rfl, hpq⟩
  · exact ⟨haccepting p hp, hinner _ hn.1, fun c hc => nomatch hc⟩
  · obtain ⟨hp, hq, ha⟩ := hn.2.1 _ hpq
    exact ⟨hinner p hp, hinner q hq, ha⟩

end Star

end FiniteAutomata.Nfa
