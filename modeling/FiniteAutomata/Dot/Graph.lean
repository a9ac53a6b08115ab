import FiniteAutomata.Dot.Statement
import FiniteAutomata.Label.Naming
import FiniteAutomata.OrdSet.Numbering

/-!
# Dot/Graph — automata as graph descriptions

The states become nodes, numbered from `0` in ascending order and labelled with their texts; an
arrow leads into the start.  An edge is labelled with the text of its symbol, a silent one with `ε`,
and drawn between the numbers of its ends, so an automaton with an edge that ends outside its states
has no description.
-/

namespace FiniteAutomata

/-- A type of symbols that have a text. -/
class Shown (α : Type) where
  chars : α → List Char

instance : Shown Char := ⟨fun c => [c]⟩

variable {σ α : Type} [Ordered σ] [Named σ] [Ordered α] [Shown α]

namespace Dot

/-- The nodes, and the arrow into the start if the start is one of them. -/
def nodes (states accepting : OrdSet σ) (start : Option σ) : List Statement :=
  (if start.isSome then [.startNode] else []) ++
    states.toList.zipIdx.flatMap fun (q, i) =>
      .node (Named.label q).text (accepting.contains q) i ::
        if start = some q then [.startArrow i] else []

/-- The text at an edge. -/
def edgeText : Option α → List Char
  | some c => Shown.chars c
  | none => ['ε']

/-- An edge between the numbers of its ends, if both have one. -/
def edge? (states : OrdSet σ) (source target : σ) (label : List Char) : Option Statement := do
  return .edge (← states.position? source) (← states.position? target) label

end Dot

/-- The lines that describe an automaton, if every edge joins two of its states. -/
def Nfa.statements? (n : Nfa σ α) : Option (List Dot.Statement) := do
  let edges ← n.transitions.toList.mapM fun t =>
    Dot.edge? n.states t.source t.target (Dot.edgeText t.label)
  return Dot.nodes n.states n.accepting (some n.start) ++ edges

/-- The description of an automaton, if every edge joins two of its states. -/
def Nfa.dot? (n : Nfa σ α) : Option String :=
  n.statements?.map fun ss => String.ofList (Dot.graphText ss)

/-- The lines that describe an automaton, if every entry joins two of its states. -/
def Dfa.statements? (d : Dfa σ α) : Option (List Dot.Statement) := do
  let edges ← d.entries.mapM fun (q, c, r) => Dot.edge? d.states q r (Shown.chars c)
  return Dot.nodes d.states d.accepting d.start ++ edges

/-- The description of an automaton, if every entry joins two of its states. -/
def Dfa.dot? (d : Dfa σ α) : Option String :=
  d.statements?.map fun ss => String.ofList (Dot.graphText ss)

end FiniteAutomata
