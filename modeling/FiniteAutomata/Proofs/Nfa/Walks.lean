import FiniteAutomata.Proofs.Nfa.Acceptance

/-!
# Proofs/Nfa/Walks — acceptance by a list of edges

A walk is a list of edges of the automaton, each of which starts where the one before it ends.  It
spells the labels of its edges, and silent edges spell nothing.  Walks spell between two states what
paths spell (`exists_walk_iff`).  So a run, which keeps a set of states and closes it under silent
edges before the first symbol and after every one, holds the ends of the walks from the start
(`runs_follow_walks`): it matters neither how many silent edges stand between two symbols or after
the last one, nor whether they form cycles, nor whether the ends of edges are states.
-/

namespace FiniteAutomata

variable {σ α : Type}

/-- The edges lead from `p` to `q`: each starts where the one before it ends. -/
def Transition.Joined : σ → List (Transition σ α) → σ → Prop
  | p, [], q => p = q
  | p, t :: ts, q => t.source = p ∧ Joined t.target ts q

/-- One more edge at the end leads on. -/
theorem Transition.Joined.concat : ∀ {p : σ} {ts : List (Transition σ α)} {t : Transition σ α},
    Joined p ts t.source → Joined p (ts ++ [t]) t.target
  | _, [], _, h => ⟨h.symm, rfl⟩
  | _, _ :: _, _, h => ⟨h.1, h.2.concat⟩

namespace Nfa

variable [Ordered σ] [Ordered α] {n : Nfa σ α} {p q : σ}

/-- Edges of the automaton that lead from `p` to `q`. -/
structure Walk (n : Nfa σ α) (p q : σ) where
  edges : List (Transition σ α)
  mem_transitions : ∀ t ∈ edges, t ∈ n.transitions
  joined : Transition.Joined p edges q

namespace Walk

/-- The labels of the edges, silent ones left out. -/
def word (walk : n.Walk p q) : List α := walk.edges.filterMap Transition.label

/-- No edge at all. -/
def nil (n : Nfa σ α) (q : σ) : n.Walk q q := ⟨[], List.forall_mem_nil _, rfl⟩

/-- One more edge in front. -/
def cons {a : Option α} {r : σ} (ht : ⟨p, q, a⟩ ∈ n.transitions) (walk : n.Walk q r) :
    n.Walk p r where
  edges := ⟨p, q, a⟩ :: walk.edges
  mem_transitions := List.forall_mem_cons.2 ⟨ht, walk.mem_transitions⟩
  joined := ⟨rfl, walk.joined⟩

/-- One more edge at the end. -/
def concat {a : Option α} {r : σ} (walk : n.Walk p q) (ht : ⟨q, r, a⟩ ∈ n.transitions) :
    n.Walk p r where
  edges := walk.edges ++ [⟨q, r, a⟩]
  mem_transitions := List.forall_mem_append.2 ⟨walk.mem_transitions, List.forall_mem_singleton.2 ht⟩
  joined := walk.joined.concat

/-- The edge in front spells its label first. -/
theorem word_cons {r : σ} : ∀ {a : Option α} (ht : ⟨p, q, a⟩ ∈ n.transitions) (walk : n.Walk q r),
    (cons ht walk).word = a.toList ++ walk.word
  | none, _, _ => rfl
  | some _, _, _ => rfl

/-- Some path spells the word of a walk. -/
theorem path (walk : n.Walk p q) : n.Path p walk.word q := by
  obtain ⟨edges, hmem, hjoined⟩ := walk
  induction edges generalizing p with
  | nil =>
    obtain rfl := hjoined
    exact .nil p
  | cons t ts ih =>
    obtain ⟨ht, hts⟩ := List.forall_mem_cons.1 hmem
    obtain ⟨rfl, hrest⟩ := hjoined
    exact word_cons ht ⟨ts, hts, hrest⟩ ▸ .edge ht (ih hts hrest)

end Walk

/-- **Walks spell what paths spell** between the same states. -/
theorem exists_walk_iff {w : List α} : (∃ walk : n.Walk p q, walk.word = w) ↔ n.Path p w q := by
  constructor
  · rintro ⟨walk, rfl⟩
    exact walk.path
  · intro hpath
    induction hpath using Path.edgeInduction with
    | nil => exact ⟨.nil n q, rfl⟩
    | edge ht _ ih =>
      obtain ⟨walk, rfl⟩ := ih
      exact ⟨.cons ht walk, Walk.word_cons ht walk⟩

/-- **A run follows walks**, in an automaton of any kind: after a word it holds the states to which
some walk from the start spells it, so the word is accepted exactly if some walk to an accepting
state spells it. -/
theorem runs_follow_walks (n : Nfa σ α) (w : List α) :
    (∀ q, q ∈ n.run w ↔ ∃ walk : n.Walk n.start q, walk.word = w) ∧
      (n.accepts w ↔ ∃ q ∈ n.accepting, ∃ walk : n.Walk n.start q, walk.word = w) := by
  simp only [exists_walk_iff]
  exact ⟨fun _ => mem_run, accepts_iff_recognizes⟩

end Nfa

end FiniteAutomata
