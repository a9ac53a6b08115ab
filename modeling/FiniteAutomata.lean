import FiniteAutomata.Dfa.Algebra
import FiniteAutomata.Dfa.Basic
import FiniteAutomata.Dfa.Reachable
import FiniteAutomata.Dfa.Relabel
import FiniteAutomata.Dfa.ToNfa
import FiniteAutomata.Dot.Graph
import FiniteAutomata.Dot.Statement
import FiniteAutomata.Label.Basic
import FiniteAutomata.Label.Naming
import FiniteAutomata.Label.Text
import FiniteAutomata.Log.Automata
import FiniteAutomata.Log.Record
import FiniteAutomata.Log.Run
import FiniteAutomata.Nfa.Basic
import FiniteAutomata.Nfa.Combine
import FiniteAutomata.Nfa.Path
import FiniteAutomata.Nfa.Relabel
import FiniteAutomata.Nfa.Run
import FiniteAutomata.Nfa.ToDfa
import FiniteAutomata.OrdMap.Basic
import FiniteAutomata.OrdSet.Basic
import FiniteAutomata.OrdSet.Numbering
import FiniteAutomata.OrdSet.Powerset
import FiniteAutomata.Order
import FiniteAutomata.Proofs.Automata.Embedding
import FiniteAutomata.Proofs.Automata.Operations
import FiniteAutomata.Proofs.Automata.Trimming
import FiniteAutomata.Proofs.Dfa.Bisimulation
import FiniteAutomata.Proofs.Dfa.Equality
import FiniteAutomata.Proofs.Dfa.Numbering
import FiniteAutomata.Proofs.Dfa.Relabelling
import FiniteAutomata.Proofs.Dfa.SetOperations
import FiniteAutomata.Proofs.Dfa.SideBySide
import FiniteAutomata.Proofs.Dfa.Tabulation
import FiniteAutomata.Proofs.Dfa.Validity
import FiniteAutomata.Proofs.Dfa.Words
import FiniteAutomata.Proofs.Dot.Drawing
import FiniteAutomata.Proofs.Nfa.Acceptance
import FiniteAutomata.Proofs.Nfa.Bisimulation
import FiniteAutomata.Proofs.Nfa.CanonicalForm
import FiniteAutomata.Proofs.Nfa.Combination
import FiniteAutomata.Proofs.Nfa.Congruence
import FiniteAutomata.Proofs.Nfa.Determinization
import FiniteAutomata.Proofs.Nfa.Languages
import FiniteAutomata.Proofs.Nfa.Numbering
import FiniteAutomata.Proofs.Nfa.Reachability
import FiniteAutomata.Proofs.Nfa.Relabelling
import FiniteAutomata.Proofs.Nfa.Walks
import FiniteAutomata.Proofs.Order.Counting
import FiniteAutomata.Proofs.Order.Matching
import FiniteAutomata.Proofs.Regex.Comparison
import FiniteAutomata.Proofs.Regex.Compilation
import FiniteAutomata.Proofs.Regex.Completion
import FiniteAutomata.Proofs.Regex.Construction
import FiniteAutomata.Proofs.Regex.Depth
import FiniteAutomata.Proofs.Regex.Matching
import FiniteAutomata.Proofs.Regex.Printing
import FiniteAutomata.Proofs.Regex.Reading
import FiniteAutomata.Proofs.Regex.Recognition
import FiniteAutomata.Proofs.Regex.Refusal
import FiniteAutomata.Proofs.Regex.Regrouping
import FiniteAutomata.Proofs.Regex.Sizes
import FiniteAutomata.Proofs.Regex.Tagging
import FiniteAutomata.Regex.Basic
import FiniteAutomata.Regex.Compile
import FiniteAutomata.Regex.Cutting
import FiniteAutomata.Regex.Equivalence
import FiniteAutomata.Regex.Expansion
import FiniteAutomata.Regex.Glyph
import FiniteAutomata.Regex.Grammar
import FiniteAutomata.Regex.Language
import FiniteAutomata.Regex.Marked
import FiniteAutomata.Regex.ParseError
import FiniteAutomata.Regex.Parser
import FiniteAutomata.Regex.Printer
import FiniteAutomata.Regex.StateCount
import FiniteAutomata.Regex.Tagged
import FiniteAutomata.Regex.Thompson
import FiniteAutomata.Regex.Workbench
import FiniteAutomata.Saturation
import FiniteAutomata.Search
import FiniteAutomata.Text.CharClass
import FiniteAutomata.Text.Extending
import FiniteAutomata.Text.Ignorable
import FiniteAutomata.Text.Invisible
import FiniteAutomata.Text.Quoted
import FiniteAutomata.Text.Unprintable
import FiniteAutomata.Traversal
import FiniteAutomata.Proofs.Dfa.Symmetry
import FiniteAutomata.Proofs.Nfa.Renaming
import FiniteAutomata.Proofs.Regex.Brevity
import FiniteAutomata.Regex.Descent
import FiniteAutomata.Proofs.Regex.Rules
import FiniteAutomata.Proofs.Regex.Descent
import FiniteAutomata.Proofs.Regex.Diagnosis
import FiniteAutomata.Proofs.Regex.Reporting
import FiniteAutomata.Proofs.Dot.Labels
import FiniteAutomata.Proofs.Dot.Decoding
import FiniteAutomata.Proofs.Regex.Expansion
import FiniteAutomata.Proofs.Automata.Distances
import FiniteAutomata.Proofs.Order.Doubling
import FiniteAutomata.Proofs.Dot.Entries
import FiniteAutomata.Proofs.Dot.Depiction
