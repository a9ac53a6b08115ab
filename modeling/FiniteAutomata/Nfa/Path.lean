import FiniteAutomata.Nfa.Basic

/-!
# Nfa/Path — acceptance by a single path

A path follows edges one after the other and spells the labels it meets; silent edges spell
nothing.  A word is accepted along a path that leads from the start to an accepting state.
-/

namespace FiniteAutomata.Nfa

variable {σ α : Type} [Ordered σ] [Ordered α]

/-- `n.Path p w q`: some path from `p` to `q` spells `w`. -/
inductive Path (n : Nfa σ α) : σ → List α → σ → Prop
  | nil (q : σ) : Path n q [] q
  | silent {p q r : σ} {w : List α} : .silent p q ∈ n.transitions → Path n q w r → Path n p w r
  | reading {p q r : σ} {c : α} {w : List α} : .reading p q c ∈ n.transitions → Path n q w r →
      Path n p (c :: w) r

/-- Paths are put together end to end. -/
theorem Path.append {n : Nfa σ α} {p q r : σ} {u v : List α} (h : n.Path p u q)
    (h' : n.Path q v r) : n.Path p (u ++ v) r := by
  induction h with
  | nil => exact h'
  | silent ht _ ih => exact .silent ht (ih h')
  | reading ht _ ih => exact .reading ht (ih h')

/-- Some path leads from the start to the state, whatever it spells. -/
def Reaches (n : Nfa σ α) (q : σ) : Prop := ∃ w, n.Path n.start w q

/-- Some path from the start to an accepting state spells the word. -/
def Recognizes (n : Nfa σ α) (w : List α) : Prop := ∃ q ∈ n.accepting, n.Path n.start w q

end FiniteAutomata.Nfa
