import FiniteAutomata.Proofs.Dot.Drawing
import FiniteAutomata.Proofs.Dot.Entries
import FiniteAutomata.Proofs.Order.Counting
import Mathlib.Data.List.Forall2

/-!
# Proofs/Dot/Depiction — what a description draws, and when there is none

A description fails at a stray edge only: an edge or an entry one end of which is no state
(`Nfa.dot?_eq_none_iff`, `Dfa.dot?_eq_none_iff`).  The start and the accepting states need not be
states, and neither need those that have a row without entries.  Sorted by what they draw, the
entries of a description are one node for each state, one edge for each edge or entry, between the
numbers of its own ends, and one arrow into the start if that is a state (`Dot.Depicts`).
-/

namespace FiniteAutomata

/-- A value on the whole list is made of the values at its elements, one by one. -/
theorem forall₂_of_mapM {β γ : Type} {f : β → Option γ} {xs : List β} {ys : List γ}
    (h : xs.mapM f = some ys) : List.Forall₂ (fun x y => f x = some y) xs ys := by
  induction xs generalizing ys with
  | nil =>
    obtain rfl := Option.some.inj h
    exact .nil
  | cons x xs ih =>
    obtain ⟨y, zs, hy, hzs, rfl⟩ := mapM_cons_eq_some.1 h
    exact .cons hy (ih hzs)

/-- A value at those elements of a list that pass a test. -/
theorem flatMap_optional {β γ : Type} (p : β → Prop) [DecidablePred p] (f : β → γ) (xs : List β) :
    (xs.flatMap fun x => if p x then [f x] else []) = (xs.filter fun x => p x).map f := by
  induction xs with
  | nil => rfl
  | cons x xs ih => by_cases hx : p x <;> simp [hx, ih]

namespace Dot

/-! ## The lines of one kind -/

variable {σ : Type} [Ordered σ] {states accepting : OrdSet σ} {start : Option σ}

theorem ofKind_cons (k : Kind) (s : Statement) (lines : List Statement) :
    ofKind k (s :: lines) = (if s.kind = k then [s] else []) ++ ofKind k lines := by
  by_cases hk : s.kind = k <;> simp [ofKind, hk]

/-- A line that is there on a condition. -/
theorem ofKind_optional (k : Kind) (s : Statement) (c : Prop) [Decidable c] :
    ofKind k (if c then [s] else []) = if s.kind = k ∧ c then [s] else [] := by
  by_cases hc : c <;> by_cases hk : s.kind = k <;> simp [ofKind, hc, hk]

section Edges

variable {β : Type} {xs : List β} {p q : β → σ} {text : β → List Char} {edges : List Statement}
  (hedges : (xs.mapM fun x => edge? states (p x) (q x) (text x)) = some edges)

include hedges

/-- Edges are all that the lines of edges draw. -/
theorem ofKind_edges (k : Kind) : ofKind k edges = if k = .edge then edges else [] := by
  have hkind : ∀ s ∈ edges, s.kind = .edge := by
    intro s hs
    obtain ⟨x, -, i, j, -, -, rfl⟩ := (mem_edges hedges).1 hs
    rfl
  split
  · next hk => exact List.filter_eq_self.2 fun s hs => decide_eq_true (hk ▸ hkind s hs)
  · next hk =>
    exact List.filter_eq_nil_iff.2 fun s hs h => hk (of_decide_eq_true h ▸ hkind s hs)

end Edges

/-- A state has one number. -/
theorem eq_of_getElem? {r : σ} {i j : Nat} (hi : states.toList[i]? = some r)
    (hj : states.toList[j]? = some r) : i = j :=
  Option.some.inj ((OrdSet.position?_eq_some.2 hi).symm.trans (OrdSet.position?_eq_some.2 hj))

variable [Named σ]

/-- The entries draw the states, what joins them, and the way into the start, each of them once, and
nothing else. -/
structure Depicts {β : Type} (states accepting : OrdSet σ) (start : Option σ) (xs : List β)
    (p q : β → σ) (text : β → List Char) (entries : List String) : Prop where
  /-- The states are numbered from `0`, in ascending order; a backslash stands before every double
  quote in the text of a state. -/
  nodes_eq : beginning .node entries = states.toList.zipIdx.map fun (r, i) =>
    nodeEntry
      (String.ofList ((Named.label r).text.flatMap fun c => if c = '"' then ['\\', '"'] else [c]))
      (if accepting.contains r then "doublecircle" else "circle") i
  /-- An edge is drawn between the numbers of its own ends. -/
  edges : List.Forall₂ (fun x e => ∃ i j, states.toList[i]? = some (p x) ∧
    states.toList[j]? = some (q x) ∧ e = edgeEntry i j (String.ofList (text x)))
      xs (beginning .edge entries)
  startNode_eq : beginning .startNode entries =
    if start.isSome then ["node[shape=none, label=\"\"] start"] else []
  /-- The arrow leads to the number of the start. -/
  startArrow_eq : ∀ r i, start = some r → states.toList[i]? = some r →
    beginning .startArrow entries = [startEntry i]
  startArrow_eq_nil : (∀ r ∈ start, r ∉ states) → beginning .startArrow entries = []
  exists_mem : ∀ e ∈ entries, ∃ k, e ∈ beginning k entries

/-- The edges, by the numbers of the states. -/
theorem Depicts.edges_eq {β : Type} {xs : List β} {p q : β → σ} {text : β → List Char}
    {entries : List String} (h : Depicts states accepting start xs p q text entries)
    {number : σ → Nat} (hnumber : ∀ r ∈ states, states.toList[number r]? = some r) :
    beginning .edge entries =
      xs.map fun x => edgeEntry (number (p x)) (number (q x)) (String.ofList (text x)) := by
  have hone : ∀ {r i}, states.toList[i]? = some r → number r = i := fun hr =>
    eq_of_getElem? (hnumber _ (List.mem_of_getElem? hr)) hr
  have hentries : List.Forall₂ (fun x e =>
      edgeEntry (number (p x)) (number (q x)) (String.ofList (text x)) = e) xs
        (beginning .edge entries) := by
    refine h.edges.imp ?_
    rintro x e ⟨i, j, hi, hj, rfl⟩
    rw [hone hi, hone hj]
  rw [← List.forall₂_map_left_iff, List.forall₂_eq_eq_eq] at hentries
  exact hentries.symm

/-! ## The lines of the nodes -/

/-- The lines of one kind, before the states and at each of them. -/
theorem ofKind_nodes (k : Kind) : ofKind k (nodes states accepting start) =
    (if .startNode = k ∧ start.isSome then [.startNode] else []) ++
      states.toList.zipIdx.flatMap fun (r, i) =>
        (if .node = k then [.node (Named.label r).text (accepting.contains r) i] else []) ++
          if .startArrow = k ∧ start = some r then [.startArrow i] else [] := by
  have hpieces : ofKind k (nodes states accepting start) =
      ofKind k (if start.isSome then [.startNode] else []) ++
        states.toList.zipIdx.flatMap fun (r, i) =>
          ofKind k (.node (Named.label r).text (accepting.contains r) i ::
            if start = some r then [.startArrow i] else []) := by
    rw [nodes, ofKind, List.filter_append, List.filter_flatMap]
    rfl
  simp only [hpieces, ofKind_cons, ofKind_optional]
  rfl

theorem ofKind_node_nodes : ofKind .node (nodes states accepting start) =
    states.toList.zipIdx.map fun (r, i) => .node (Named.label r).text (accepting.contains r) i := by
  rw [ofKind_nodes, List.map_eq_flatMap]
  simp

theorem ofKind_edge_nodes : ofKind .edge (nodes states accepting start) = [] := by
  rw [ofKind_nodes]
  simp

theorem ofKind_startNode_nodes : ofKind .startNode (nodes states accepting start) =
    if start.isSome then [.startNode] else [] := by
  rw [ofKind_nodes]
  simp

theorem ofKind_startArrow_nodes : ofKind .startArrow (nodes states accepting start) =
    (states.toList.zipIdx.filter fun x => start = some x.1).map fun x => .startArrow x.2 := by
  rw [ofKind_nodes, ← flatMap_optional]
  simp

/-- **The arrow leads to the start**, which has one number only. -/
theorem ofKind_startArrow_nodes_of_mem {r : σ} {i : Nat} (hr : states.toList[i]? = some r) :
    ofKind .startArrow (nodes states accepting (some r)) = [.startArrow i] := by
  have hnodup : states.toList.zipIdx.Nodup := by
    refine .of_map Prod.fst ?_
    rw [List.zipIdx_map_fst]
    exact states.nodup_toList
  have hone : ∀ x ∈ states.toList.zipIdx, decide (some r = some x.1) = decide (x = (r, i)) := by
    intro x hx
    have hx := List.mem_zipIdx_iff_getElem?.1 hx
    refine decide_eq_decide.2 ⟨fun h => ?_, fun h => by rw [h]⟩
    obtain rfl := Option.some.inj h
    exact Prod.ext rfl (eq_of_getElem? hx hr)
  rw [ofKind_startArrow_nodes, List.filter_congr hone, List.filter_eq,
    List.count_eq_one_of_mem hnodup (List.mem_zipIdx_iff_getElem?.2 hr)]
  rfl

theorem ofKind_startArrow_nodes_of_notMem (h : ∀ r ∈ start, r ∉ states) :
    ofKind .startArrow (nodes states accepting start) = [] := by
  rw [ofKind_startArrow_nodes, List.map_eq_nil_iff, List.filter_eq_nil_iff]
  intro x hx hstart
  exact h x.1 (of_decide_eq_true hstart) (List.mem_of_getElem? (List.mem_zipIdx_iff_getElem?.1 hx))

/-! ## All entries -/

/-- Symbols stand for themselves, and `ε` for none. -/
theorem edgeText_eq {α : Type} [Shown α] (a : Option α) :
    edgeText a = a.elim ['ε'] Shown.chars := by
  cases a with
  | none => rfl
  | some c => rfl

section Entries

variable {β : Type} {xs : List β} {p q : β → σ} {text : β → List Char} {edges : List Statement}
  (hedges : (xs.mapM fun x => edge? states (p x) (q x) (text x)) = some edges)

include hedges

/-- The entries of the lines of nodes and edges, by kind. -/
theorem beginning_entries (k : Kind) :
    beginning k ((nodes states accepting start ++ edges).map Statement.entry) =
      (ofKind k (nodes states accepting start)).map Statement.entry ++
        (if k = .edge then edges else []).map Statement.entry := by
  rw [beginning_map_entry, ← ofKind_edges hedges, ← List.map_append, ofKind, List.filter_append]
  rfl

theorem beginning_entries_of_ne {k : Kind} (hk : k ≠ .edge) :
    beginning k ((nodes states accepting start ++ edges).map Statement.entry) =
      (ofKind k (nodes states accepting start)).map Statement.entry := by
  rw [beginning_entries hedges, if_neg hk, List.map_nil, List.append_nil]

theorem beginning_edge_entries :
    beginning .edge ((nodes states accepting start ++ edges).map Statement.entry) =
      edges.map Statement.entry := by
  rw [beginning_entries hedges, if_pos rfl, ofKind_edge_nodes, List.map_nil, List.nil_append]

/-- **What is drawn is depicted.** -/
theorem depicts_append : Depicts states accepting start xs p q text
    ((nodes states accepting start ++ edges).map Statement.entry) where
  nodes_eq := by
    rw [beginning_entries_of_ne hedges (by decide), ofKind_node_nodes, List.map_map]
    exact List.map_congr_left fun _ _ => Statement.entry_node ..
  edges := by
    rw [beginning_edge_entries hedges, List.forall₂_map_right_iff]
    refine (forall₂_of_mapM hedges).imp fun x line hline => ?_
    obtain ⟨i, j, hi, hj, rfl⟩ := edge?_eq_some.1 hline
    exact ⟨i, j, OrdSet.position?_eq_some.1 hi, OrdSet.position?_eq_some.1 hj,
      Statement.entry_edge ..⟩
  startNode_eq := by
    rw [beginning_entries_of_ne hedges (by decide), ofKind_startNode_nodes]
    cases start with
    | none => rfl
    | some r => rfl
  startArrow_eq := by
    rintro r i rfl hr
    rw [beginning_entries_of_ne hedges (by decide), ofKind_startArrow_nodes_of_mem hr,
      List.map_singleton, Statement.entry_startArrow]
  startArrow_eq_nil h := by
    rw [beginning_entries_of_ne hedges (by decide), ofKind_startArrow_nodes_of_notMem h,
      List.map_nil]
  exists_mem _ := exists_mem_beginning

end Entries

end Dot

variable {σ α : Type} [Ordered σ] [Named σ] [Ordered α] [Shown α]

namespace Nfa

variable {n : Nfa σ α}

/-- **A stray edge leaves an automaton without a description**, and nothing else does. -/
theorem dot?_eq_none_iff :
    n.dot? = none ↔ ∃ t ∈ n.transitions, t.source ∉ n.states ∨ t.target ∉ n.states := by
  rw [← Option.not_isSome_iff_eq_none, isSome_dot?_iff]
  simp only [not_forall, not_and_or, exists_prop]

theorem exists_depicts {text : String} (h : n.dot? = some text) : ∃ entries,
    text = Dot.framed entries ∧
      Dot.Depicts n.states n.accepting (some n.start) n.transitions.toList Transition.source
        Transition.target (fun t => t.label.elim ['ε'] Shown.chars) entries := by
  obtain ⟨lines, hlines, rfl⟩ := Option.map_eq_some_iff.1 h
  obtain ⟨edges, hedges, rfl⟩ := statements?_eq_some.1 hlines
  refine ⟨_, Dot.ofList_graphText _, ?_⟩
  simp only [← Dot.edgeText_eq]
  exact Dot.depicts_append hedges

end Nfa

namespace Dfa

variable {d : Dfa σ α}

/-- **A stray entry leaves an automaton without a description**, and nothing else does. -/
theorem dot?_eq_none_iff : d.dot? = none ↔ ∃ row ∈ d.rows.entries, ∃ entry ∈ row.2.entries,
    row.1 ∉ d.states ∨ entry.2 ∉ d.states := by
  rw [← Option.not_isSome_iff_eq_none, isSome_dot?_iff]
  simp only [step_eq_some, not_forall, not_and_or, exists_prop]
  constructor
  · rintro ⟨q, c, r, hmem, hstray⟩
    obtain ⟨row, hrow, hmem⟩ := List.mem_flatMap.1 hmem
    obtain ⟨entry, hentry, heq⟩ := List.mem_map.1 hmem
    cases heq
    exact ⟨row, hrow, entry, hentry, hstray⟩
  · rintro ⟨row, hrow, entry, hentry, hstray⟩
    exact ⟨row.1, entry.1, entry.2,
      List.mem_flatMap.2 ⟨row, hrow, List.mem_map.2 ⟨entry, hentry, rfl⟩⟩, hstray⟩

theorem exists_depicts {text : String} (h : d.dot? = some text) : ∃ entries,
    text = Dot.framed entries ∧
      Dot.Depicts d.states d.accepting d.start d.entries (fun x => x.1) (fun x => x.2.2)
        (fun x => Shown.chars x.2.1) entries := by
  obtain ⟨lines, hlines, rfl⟩ := Option.map_eq_some_iff.1 h
  obtain ⟨edges, hedges, rfl⟩ := statements?_eq_some.1 hlines
  exact ⟨_, Dot.ofList_graphText _, Dot.depicts_append hedges⟩

end Dfa

/-- **An automaton of any kind is described unless an edge is stray**: there is no description
exactly if an end of some edge, or of some entry of a row, is no state; what the start and the
accepting states are makes no difference.  What is written of an automaton is a frame around one node
for each state, numbered from `0` in ascending order, one edge for each edge or entry, between the
numbers of its own ends, and one arrow into the start if it is a state and none if it is not. -/
theorem described_unless_stray :
    (∀ n : Nfa σ α,
      (n.dot? = none ↔ ∃ t ∈ n.transitions, t.source ∉ n.states ∨ t.target ∉ n.states) ∧
      (∀ start accepting, ({ n with start := start, accepting := accepting } : Nfa σ α).dot? = none ↔
        n.dot? = none) ∧
      ∀ text, n.dot? = some text → ∃ entries, text = Dot.framed entries ∧
        Dot.Depicts n.states n.accepting (some n.start) n.transitions.toList Transition.source
          Transition.target (fun t => t.label.elim ['ε'] Shown.chars) entries) ∧
    ∀ d : Dfa σ α,
      (d.dot? = none ↔ ∃ row ∈ d.rows.entries, ∃ entry ∈ row.2.entries,
        row.1 ∉ d.states ∨ entry.2 ∉ d.states) ∧
      (∀ start accepting, ({ d with start := start, accepting := accepting } : Dfa σ α).dot? = none ↔
        d.dot? = none) ∧
      ∀ text, d.dot? = some text → ∃ entries, text = Dot.framed entries ∧
        Dot.Depicts d.states d.accepting d.start d.entries (fun x => x.1) (fun x => x.2.2)
          (fun x => Shown.chars x.2.1) entries := by
  refine ⟨fun n => ⟨Nfa.dot?_eq_none_iff, fun start accepting => ?_, fun _ => Nfa.exists_depicts⟩,
    fun d => ⟨Dfa.dot?_eq_none_iff, fun start accepting => ?_, fun _ => Dfa.exists_depicts⟩⟩
  · rw [Nfa.dot?_eq_none_iff, Nfa.dot?_eq_none_iff]
  · rw [Dfa.dot?_eq_none_iff, Dfa.dot?_eq_none_iff]

/-- One state, and one edge from it; the accepting state is another one. -/
def outlying (start target : Nat) : Nfa Nat Char where
  states := {0}
  alphabet := {'a'}
  start := start
  transitions := {.reading 0 target 'a'}
  accepting := {7}

/-- The same in rows; that of no state is without entries. -/
def outlyingRows (start target : Nat) : Dfa Nat Char where
  states := {0}
  alphabet := {'a'}
  start := some start
  rows := .ofList [(0, .ofList [('a', target)]), (9, ∅)]
  accepting := {7}

/-- A start outside the states has no arrow, and only an edge that leads outside stands in the way of
a description. -/
theorem outlying_drawn_without_arrow :
    (∃ entries, (outlying 0 0).dot? = some (Dot.framed entries) ∧
      Dot.beginning .startArrow entries = ["start -> id0"]) ∧
    (∃ entries, (outlying 5 0).dot? = some (Dot.framed entries) ∧
      Dot.beginning .node entries = ["node[label=\"0\", shape=circle] id0"] ∧
      Dot.beginning .edge entries = ["id0 -> id0 [label=\"a\"]"] ∧
      Dot.beginning .startArrow entries = []) ∧
    (outlying 0 5).dot? = none ∧
    (∃ entries, (outlyingRows 5 0).dot? = some (Dot.framed entries) ∧
      Dot.beginning .node entries = ["node[label=\"0\", shape=circle] id0"] ∧
      Dot.beginning .edge entries = ["id0 -> id0 [label=\"a\"]"] ∧
      Dot.beginning .startArrow entries = []) ∧
    (outlyingRows 0 5).dot? = none := by
  obtain ⟨hnfa, hdfa⟩ := described_unless_stray (σ := Nat) (α := Char)
  have hstart : ∀ r ∈ some 5, r ∉ ({0} : OrdSet Nat) := by simp
  have hnumber : ∀ r ∈ ({0} : OrdSet Nat), ({0} : OrdSet Nat).toList[0]? = some r := by
    intro r hr
    rw [OrdSet.mem_singleton.1 hr]
    rfl
  have hloop : ∀ start, (outlying start 0).dot? ≠ none := by
    intro start
    rw [Ne, (hnfa (outlying start 0)).1]
    simp [outlying, Transition.reading]
  have hrow : (outlyingRows 5 0).dot? ≠ none := by
    rw [Ne, (hdfa (outlyingRows 5 0)).1]
    decide
  refine ⟨?_, ?_, ?_, ?_, ?_⟩
  · obtain ⟨text, htext⟩ := Option.ne_none_iff_exists'.1 (hloop 0)
    obtain ⟨entries, rfl, hentries⟩ := (hnfa (outlying 0 0)).2.2 text htext
    exact ⟨entries, htext, hentries.startArrow_eq 0 0 rfl rfl⟩
  · obtain ⟨text, htext⟩ := Option.ne_none_iff_exists'.1 (hloop 5)
    obtain ⟨entries, rfl, hentries⟩ := (hnfa (outlying 5 0)).2.2 text htext
    exact ⟨entries, htext, hentries.nodes_eq, hentries.edges_eq hnumber,
      hentries.startArrow_eq_nil hstart⟩
  · rw [(hnfa (outlying 0 5)).1]
    simp [outlying, Transition.reading]
  · obtain ⟨text, htext⟩ := Option.ne_none_iff_exists'.1 hrow
    obtain ⟨entries, rfl, hentries⟩ := (hdfa (outlyingRows 5 0)).2.2 text htext
    exact ⟨entries, htext, hentries.nodes_eq, hentries.edges_eq hnumber,
      hentries.startArrow_eq_nil hstart⟩
  · rw [(hdfa (outlyingRows 0 5)).1]
    decide

end FiniteAutomata
