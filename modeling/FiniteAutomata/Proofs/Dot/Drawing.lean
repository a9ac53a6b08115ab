import FiniteAutomata.Dot.Graph
import FiniteAutomata.Proofs.Dfa.Words
import FiniteAutomata.Traversal

/-!
# Proofs/Dot/Drawing — which automata have a description

The nodes are the states, numbered by position (`Dot.node_mem_nodes`).  An edge is drawn between the
positions of its ends, so an automaton has a description exactly if its edges join states
(`Nfa.isSome_dot?_iff`, `Dfa.isSome_dot?_iff`); those of a valid automaton do.
-/

namespace FiniteAutomata

variable {σ α : Type} [Ordered σ]

namespace Dot

/-- An edge is drawn between the positions of its ends. -/
theorem edge?_eq_some {states : OrdSet σ} {p q : σ} {label : List Char} {s : Statement} :
    edge? states p q label = some s ↔ ∃ i j, states.position? p = some i ∧
      states.position? q = some j ∧ .edge i j label = s := by
  rw [edge?]
  cases states.position? p <;> cases states.position? q <;> simp

/-- An edge is drawn exactly if it joins states. -/
theorem isSome_edge? {states : OrdSet σ} {p q : σ} {label : List Char} :
    (edge? states p q label).isSome ↔ p ∈ states ∧ q ∈ states := by
  rw [← OrdSet.isSome_position?, ← OrdSet.isSome_position?, edge?]
  cases states.position? p <;> cases states.position? q <;> simp

section

variable {β : Type} {states : OrdSet σ} {xs : List β} {p q : β → σ} {text : β → List Char}
  {edges : List Statement}
  (hedges : (xs.mapM fun x => edge? states (p x) (q x) (text x)) = some edges)

include hedges

/-- The lines of the edges. -/
theorem mem_edges {s : Statement} : s ∈ edges ↔ ∃ x ∈ xs, ∃ i j,
    states.position? (p x) = some i ∧ states.position? (q x) = some j ∧ .edge i j (text x) = s := by
  simp only [mem_of_mapM hedges, edge?_eq_some]

theorem node_notMem_edges {label : List Char} {accepting : Bool} {id : Nat} :
    .node label accepting id ∉ edges := by simp [mem_edges hedges]

end

end Dot

variable [Named σ] [Ordered α] [Shown α]

namespace Dot

variable {states accepting : OrdSet σ} {start : Option σ}

/-- The lines of the nodes. -/
theorem mem_nodes {s : Statement} : s ∈ nodes states accepting start ↔
    (start.isSome ∧ s = .startNode) ∨ ∃ q i, states.toList[i]? = some q ∧
      (s = .node (Named.label q).text (accepting.contains q) i ∨
        start = some q ∧ s = .startArrow i) := by
  have hstart : s ∈ (if start.isSome then [Statement.startNode] else []) ↔
      start.isSome ∧ s = .startNode := by
    split <;> simp_all
  have harrow : ∀ (q : σ) (i : Nat), s ∈ (if start = some q then [Statement.startArrow i] else []) ↔
      start = some q ∧ s = .startArrow i := by
    intro q i
    split <;> simp_all
  rw [nodes, List.mem_append, hstart, List.mem_flatMap]
  simp only [List.mem_cons, harrow, Prod.exists, List.mem_zipIdx_iff_getElem?]

/-- **The nodes are the states**, numbered in ascending order. -/
theorem node_mem_nodes {label : List Char} {final : Bool} {id : Nat} :
    .node label final id ∈ nodes states accepting start ↔ ∃ q, states.toList[id]? = some q ∧
      label = (Named.label q).text ∧ final = accepting.contains q := by
  simp only [mem_nodes, Statement.node.injEq, reduceCtorEq, and_false, or_false, false_or]
  constructor
  · rintro ⟨q, i, hq, hlabel, hfinal, rfl⟩
    exact ⟨q, hq, hlabel, hfinal⟩
  · rintro ⟨q, hq, hlabel, hfinal⟩
    exact ⟨q, id, hq, hlabel, hfinal, rfl⟩

/-- **The arrow leads into the start**, if it is a state. -/
theorem startArrow_mem_nodes {id : Nat} : .startArrow id ∈ nodes states accepting start ↔
    ∃ q, states.toList[id]? = some q ∧ start = some q := by
  simp only [mem_nodes, Statement.startArrow.injEq, reduceCtorEq, and_false, false_or]
  constructor
  · rintro ⟨q, i, hq, hstart, rfl⟩
    exact ⟨q, hq, hstart⟩
  · rintro ⟨q, hq, hstart⟩
    exact ⟨q, id, hq, hstart, rfl⟩

end Dot

namespace Nfa

variable {n : Nfa σ α}

/-- The lines are those of the nodes, then those of the edges. -/
theorem statements?_eq_some {lines : List Dot.Statement} : n.statements? = some lines ↔
    ∃ edges, (n.transitions.toList.mapM fun t =>
      Dot.edge? n.states t.source t.target (Dot.edgeText t.label)) = some edges ∧
        Dot.nodes n.states n.accepting (some n.start) ++ edges = lines := by
  rw [statements?, bind_pure_comp, Option.map_eq_map, Option.map_eq_some_iff]

/-- **A nondeterministic automaton has a description exactly if its edges join states.** -/
theorem isSome_dot?_iff : n.dot?.isSome ↔
    ∀ t ∈ n.transitions, t.source ∈ n.states ∧ t.target ∈ n.states := by
  rw [dot?, Option.isSome_map, statements?, bind_pure_comp, Option.map_eq_map, Option.isSome_map,
    isSome_mapM_iff]
  simp only [Dot.isSome_edge?, OrdSet.mem_toList]

theorem Valid.isSome_dot? (hn : n.Valid) : n.dot?.isSome := by
  rw [isSome_dot?_iff]
  intro t ht
  obtain ⟨hsource, htarget, -⟩ := hn.2.1 t ht
  exact ⟨hsource, htarget⟩

end Nfa

namespace Dfa

variable {d : Dfa σ α}

/-- The lines are those of the nodes, then those of the edges. -/
theorem statements?_eq_some {lines : List Dot.Statement} : d.statements? = some lines ↔
    ∃ edges, (d.entries.mapM fun x => Dot.edge? d.states x.1 x.2.2 (Shown.chars x.2.1)) =
        some edges ∧ Dot.nodes d.states d.accepting d.start ++ edges = lines := by
  rw [statements?, bind_pure_comp, Option.map_eq_map, Option.map_eq_some_iff]

/-- **A deterministic automaton has a description exactly if its entries join states.** -/
theorem isSome_dot?_iff : d.dot?.isSome ↔
    ∀ q c r, d.step (some q) c = some r → q ∈ d.states ∧ r ∈ d.states := by
  rw [dot?, Option.isSome_map, statements?, bind_pure_comp, Option.map_eq_map, Option.isSome_map,
    isSome_mapM_iff]
  simp only [Dot.isSome_edge?, step_eq_some, Prod.forall]

theorem Valid.isSome_dot? (hd : d.Valid) : d.dot?.isSome := by
  rw [isSome_dot?_iff]
  intro q c r hstep
  obtain ⟨hq, -, hr⟩ := hd.step hstep
  exact ⟨hq, hr⟩

end Dfa

end FiniteAutomata
