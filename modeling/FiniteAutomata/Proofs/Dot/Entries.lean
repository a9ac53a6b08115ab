import FiniteAutomata.Dot.Statement
import Mathlib.Data.List.Basic

/-!
# Proofs/Dot/Entries — what is written for a line

A description is a frame around entries (`Dot.framed`), one for each of its lines
(`Dot.ofList_graphText`).  An entry tells by its first characters what it draws
(`Dot.Statement.isPrefixOf_text`), so the entries of one kind can be told in the text as their lines
can among the lines (`Dot.beginning_map_entry`).
-/

namespace FiniteAutomata.Dot

/-- What a line draws. -/
inductive Kind
  | startNode
  | node
  | startArrow
  | edge
  deriving DecidableEq

/-- What the line draws. -/
def Statement.kind : Statement → Kind
  | startNode => .startNode
  | node .. => .node
  | startArrow _ => .startArrow
  | edge .. => .edge

/-- The lines that draw one kind of thing, in order. -/
def ofKind (k : Kind) (lines : List Statement) : List Statement := lines.filter fun s => s.kind = k

/-! ## What is written -/

/-- The entry of a node. -/
def nodeEntry (label shape : String) (id : Nat) : String :=
  s!"node[label=\"{label}\", shape={shape}] id{id}"

/-- The entry of the arrow into the start. -/
def startEntry (id : Nat) : String := s!"start -> id{id}"

/-- The entry of an edge. -/
def edgeEntry (source target : Nat) (label : String) : String :=
  s!"id{source} -> id{target} [label=\"{label}\"]"

/-- A description of some entries, one on a line. -/
def framed (entries : List String) : String :=
  "digraph \x7b\n" ++ String.join (entries.map (· ++ "\n")) ++ "\x7d\n"

/-- How the entries that draw one kind of thing begin. -/
def Kind.opening : Kind → String
  | startNode => "node[shape="
  | node => "node[label="
  | startArrow => "start -> "
  | edge => "id"

/-- The entries that begin like those of one kind, in order. -/
def beginning (k : Kind) (entries : List String) : List String :=
  entries.filter fun e => k.opening.toList.isPrefixOf e.toList

/-- What is written for a line. -/
def Statement.entry (s : Statement) : String := String.ofList s.text

theorem ofList_nodeName (id : Nat) : String.ofList (nodeName id) = "id" ++ toString id := by
  rw [nodeName, String.ofList_append, String.ofList_toList, Nat.toString_eq_repr,
    Nat.repr_eq_ofList_toDigits]

namespace Statement

theorem entry_node (label : List Char) (accepting : Bool) (id : Nat) :
    (node label accepting id).entry = nodeEntry (String.ofList (escapeQuotes label))
      (if accepting then "doublecircle" else "circle") id := by
  have hname : "] id" = "] " ++ "id" := rfl
  unfold entry text nodeEntry
  simp only [String.ofList_append, String.ofList_toList, ofList_nodeName, hname,
    String.append_assoc]
  rfl

theorem entry_startArrow (id : Nat) : (startArrow id).entry = startEntry id := by
  have hname : "start -> id" = "start -> " ++ "id" := rfl
  unfold entry text startEntry
  simp only [String.ofList_append, String.ofList_toList, ofList_nodeName, hname]
  rfl

theorem entry_edge (source target : Nat) (label : List Char) :
    (edge source target label).entry = edgeEntry source target (String.ofList label) := by
  have hname : " -> id" = " -> " ++ "id" := rfl
  unfold entry text edgeEntry
  simp only [String.ofList_append, String.ofList_toList, ofList_nodeName, hname,
    String.append_assoc]
  rfl

/-- **The first characters of a line tell what it draws.** -/
theorem isPrefixOf_text (k : Kind) (s : Statement) :
    k.opening.toList.isPrefixOf s.text = decide (s.kind = k) := by
  cases s <;> cases k <;> rfl

end Statement

/-- The entries that begin like those of one kind are those of the lines of that kind. -/
theorem beginning_map_entry (k : Kind) (lines : List Statement) :
    beginning k (lines.map Statement.entry) = (ofKind k lines).map Statement.entry := by
  rw [beginning, List.filter_map, ofKind]
  refine congrArg (List.map Statement.entry) (List.filter_congr fun s _ => ?_)
  rw [Function.comp_apply, Statement.entry, String.toList_ofList, Statement.isPrefixOf_text]

/-- Every entry begins like those of some kind. -/
theorem exists_mem_beginning {lines : List Statement} {e : String}
    (he : e ∈ lines.map Statement.entry) : ∃ k, e ∈ beginning k (lines.map Statement.entry) := by
  obtain ⟨s, hs, rfl⟩ := List.mem_map.1 he
  refine ⟨s.kind, ?_⟩
  rw [beginning_map_entry]
  exact List.mem_map_of_mem (List.mem_filter.2 ⟨hs, decide_eq_true rfl⟩)

theorem ofList_flatMap_text (lines : List Statement) :
    String.ofList (lines.flatMap fun s => s.text ++ ['\n']) =
      String.join ((lines.map Statement.entry).map (· ++ "\n")) := by
  rw [← String.toList_inj, String.toList_join, String.toList_ofList, List.map_map,
    List.flatMap_map]
  refine List.flatMap_congr fun s _ => ?_
  rw [Function.comp_apply, String.toList_append, Statement.entry, String.toList_ofList]
  rfl

/-- **The text of some lines** is a frame around what is written for them. -/
theorem ofList_graphText (lines : List Statement) :
    String.ofList (graphText lines) = framed (lines.map Statement.entry) := by
  unfold graphText framed
  rw [String.ofList_append, String.ofList_append, String.ofList_toList, String.ofList_toList,
    ofList_flatMap_text]

end FiniteAutomata.Dot
