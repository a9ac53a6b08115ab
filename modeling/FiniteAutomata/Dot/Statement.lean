import FiniteAutomata.Label.Text

/-!
# Dot/Statement — the lines of a graph description

A description is a list of statements between a first and a last line, one statement a line.  The
label of a node stands between double quotes, with a backslash before every double quote in it.
-/

namespace FiniteAutomata.Dot

/-- A line of a graph description. -/
inductive Statement
  /-- The invisible node that the arrow into the start comes from. -/
  | startNode
  /-- A node. -/
  | node (label : List Char) (accepting : Bool) (id : Nat)
  /-- The arrow into the start. -/
  | startArrow (id : Nat)
  /-- An edge. -/
  | edge (source target : Nat) (label : List Char)
  deriving DecidableEq

/-- A text with a backslash before every double quote. -/
def escapeQuotes (text : List Char) : List Char :=
  text.flatMap fun c => if c = '"' then ['\\', '"'] else [c]

/-- The name of the node with a number. -/
def nodeName (id : Nat) : List Char := "id".toList ++ Nat.toDigits 10 id

namespace Statement

/-- The text of a statement. -/
def text : Statement → List Char
  | startNode => "node[shape=none, label=\"\"] start".toList
  | node label accepting id =>
    "node[label=\"".toList ++ escapeQuotes label ++ "\", shape=".toList ++
      (if accepting then "doublecircle" else "circle").toList ++ "] ".toList ++ nodeName id
  | startArrow id => "start -> ".toList ++ nodeName id
  | edge source target label =>
    nodeName source ++ " -> ".toList ++ nodeName target ++ " [label=\"".toList ++ label ++
      "\"]".toList

end Statement

/-- The text of a description. -/
def graphText (statements : List Statement) : List Char :=
  "digraph \x7b\n".toList ++ (statements.flatMap fun s => s.text ++ ['\n']) ++ "\x7d\n".toList

/-! ## Reading a quoted text -/

/-- What stands before the closing double quote, and what comes after it: a backslash takes the
character after it along, and the first double quote that is not taken along closes. -/
def readQuoted : List Char → Option (List Char × List Char)
  | [] => none
  | '"' :: rest => some ([], rest)
  | '\\' :: c :: rest => (readQuoted rest).map fun (text, after) => ('\\' :: c :: text, after)
  | c :: rest => (readQuoted rest).map fun (text, after) => (c :: text, after)

end FiniteAutomata.Dot
