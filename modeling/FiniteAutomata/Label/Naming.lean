import FiniteAutomata.Dfa.Basic
import FiniteAutomata.Label.Basic
import FiniteAutomata.Nfa.Combine

/-!
# Label/Naming — the labels of the states that constructions make

Every state type the constructions build from named states is named again, one head for each way
of building.
-/

namespace FiniteAutomata

/-- A type whose elements have labels. -/
class Named (σ : Type) where
  label : σ → Label

namespace Named

variable {σ τ α : Type}

instance : Named Label := ⟨id⟩

instance : Named Unit := ⟨fun _ => .node .unit []⟩

instance : Named Bool := ⟨fun b => .node (.bool b) []⟩

instance : Named Nat := ⟨fun n => .node (.int n) []⟩

instance : Named Int := ⟨fun i => .node (.int i) []⟩

instance : Named String := ⟨fun s => .node (.text s) []⟩

instance [Named σ] : Named (Option σ) := ⟨fun
  | none => .node .absent []
  | some s => .node .present [label s]⟩

instance [Named σ] [Named τ] : Named (σ × τ) := ⟨fun p => .node .pair [label p.1, label p.2]⟩

instance [Ordered σ] [Named σ] : Named (OrdSet σ) := ⟨fun s => .node .set (s.toList.map label)⟩

instance [Named σ] [Named τ] : Named (UnionState σ τ) := ⟨fun
  | .start => .node .unionStart []
  | .left s => .node .unionLeft [label s]
  | .right t => .node .unionRight [label t]⟩

instance [Named σ] [Named τ] : Named (ConcatState σ τ) := ⟨fun
  | .left s => .node .concatLeft [label s]
  | .right t => .node .concatRight [label t]⟩

instance [Named σ] : Named (StarState σ) := ⟨fun
  | .start => .node .starStart []
  | .inner s => .node .starInner [label s]⟩

end Named

variable {σ α : Type} [Ordered σ] [Named σ] [Ordered α]

/-- The same automaton on the labels of its states. -/
def Nfa.labelled (n : Nfa σ α) : Nfa Label α := n.mapStates Named.label

/-- The same automaton on the labels of its states. -/
def Dfa.labelled (d : Dfa σ α) : Dfa Label α := d.mapStates Named.label

end FiniteAutomata
