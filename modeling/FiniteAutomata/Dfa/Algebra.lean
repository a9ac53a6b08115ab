import FiniteAutomata.Dfa.Reachable

/-!
# Dfa/Algebra — complement, products and equality of languages

Both constructions make the dead state an ordinary one, so that their results never fall into
their own: the complement has the state `none` beside the states it had, and the product of two
automata runs on the pairs of a state or dead state of each.  Nothing is pruned.
-/

namespace FiniteAutomata.Dfa

variable {σ τ α : Type} [Ordered σ] [Ordered τ] [Ordered α]

/-- Accepts the words over the alphabet that `d` rejects. -/
def complement (d : Dfa σ α) : Dfa (Option σ) α where
  states := d.withDead
  alphabet := d.alphabet
  start := some d.start
  rows := .ofKeys d.withDead fun q => .ofKeys d.alphabet (d.step q)
  accepting := d.withDead.filter fun q => !d.acceptsAt q

/-- A state or dead state of each of two automata that run side by side. -/
abbrev ProductState (σ τ : Type) := Option σ × Option τ

/-- Runs two automata over one alphabet side by side and accepts where `combine` says so. -/
def product? (combine : Bool → Bool → Bool) (a : Dfa σ α) (b : Dfa τ α) :
    Option (Dfa (ProductState σ τ) α) :=
  if a.alphabet = b.alphabet then
    let pairs := a.withDead.product b.withDead
    some {
      states := pairs
      alphabet := a.alphabet
      start := some (a.start, b.start)
      rows := .ofKeys pairs fun q => .ofKeys a.alphabet fun c => (a.step q.1 c, b.step q.2 c)
      accepting := pairs.filter fun q => combine (a.acceptsAt q.1) (b.acceptsAt q.2) }
  else
    none

/-- Accepts the words that `a` or `b` accepts. -/
def union? (a : Dfa σ α) (b : Dfa τ α) : Option (Dfa (ProductState σ τ) α) := product? or a b

/-- Accepts the words that both accept. -/
def intersection? (a : Dfa σ α) (b : Dfa τ α) : Option (Dfa (ProductState σ τ) α) :=
  product? and a b

/-- Accepts the words that `a` accepts and `b` rejects. -/
def difference? (a : Dfa σ α) (b : Dfa τ α) : Option (Dfa (ProductState σ τ) α) :=
  product? (fun x y => x && !y) a b

/-- Accepts the words that exactly one of them accepts. -/
def symmetricDifference? (a : Dfa σ α) (b : Dfa τ α) : Option (Dfa (ProductState σ τ) α) :=
  product? xor a b

/-- Whether two automata over one alphabet accept the same words. -/
def equal? (a : Dfa σ α) (b : Dfa τ α) : Option Bool := (symmetricDifference? a b).map isEmpty

end FiniteAutomata.Dfa
