import FiniteAutomata.OrdSet.Basic

/-!
# Regex/Basic — regular expressions

The tree of an expression and what can be read off it without a word.  The derived order compares
constructors in the order of their declaration, then arguments from left to right.
-/

namespace FiniteAutomata

/-- A regular expression over symbols of type `α`. -/
inductive Regex (α : Type)
  /-- Nothing at all. -/
  | empty
  /-- The empty word. -/
  | epsilon
  /-- The word of one symbol. -/
  | symbol (c : α)
  | concat (l r : Regex α)
  | union (l r : Regex α)
  | star (r : Regex α)
  deriving DecidableEq, Ord

namespace Regex

variable {α : Type}

/-- Whether the empty word is accepted. -/
def isNullable : Regex α → Bool
  | empty => false
  | epsilon => true
  | symbol _ => false
  | concat l r => l.isNullable && r.isNullable
  | union l r => l.isNullable || r.isNullable
  | star _ => true

/-- Puts another symbol for each symbol. -/
def map {β : Type} (f : α → β) : Regex α → Regex β
  | empty => empty
  | epsilon => epsilon
  | symbol c => symbol (f c)
  | concat l r => concat (l.map f) (r.map f)
  | union l r => union (l.map f) (r.map f)
  | star r => star (r.map f)

@[simp] theorem isNullable_map {β : Type} (f : α → β) :
    ∀ r : Regex α, (r.map f).isNullable = r.isNullable
  | empty | epsilon | symbol _ | star _ => rfl
  | concat l r | union l r => by simp only [map, isNullable, isNullable_map f l, isNullable_map f r]

theorem map_map {β γ : Type} (f : α → β) (g : β → γ) :
    ∀ r : Regex α, (r.map f).map g = r.map (g ∘ f)
  | empty | epsilon | symbol _ => rfl
  | concat l r | union l r => by simp only [map, map_map f g l, map_map f g r]
  | star r => by simp only [map, map_map f g r]

@[simp] theorem map_id : ∀ r : Regex α, r.map id = r
  | empty | epsilon | symbol _ => rfl
  | concat l r | union l r => by rw [map, map_id l, map_id r]
  | star r => by rw [map, map_id r]

/-- The symbols that occur somewhere in the expression. -/
def symbols [Ordered α] : Regex α → OrdSet α
  | empty | epsilon => ∅
  | symbol c => {c}
  | concat l r | union l r => l.symbols ∪ r.symbols
  | star r => r.symbols

/-- The symbols from left to right, as often as they occur. -/
def letters : Regex α → List α
  | empty | epsilon => []
  | symbol c => [c]
  | concat l r | union l r => l.letters ++ r.letters
  | star r => r.letters

@[simp] theorem mem_letters [Ordered α] {c : α} : ∀ {r : Regex α}, c ∈ r.letters ↔ c ∈ r.symbols
  | empty | epsilon => iff_of_false List.not_mem_nil OrdSet.not_mem_empty
  | symbol _ => List.mem_singleton.trans OrdSet.mem_singleton.symm
  | concat l r | union l r => by
    rw [letters, symbols, List.mem_append, OrdSet.mem_union, mem_letters, mem_letters]
  | star r => mem_letters (r := r)

end Regex

end FiniteAutomata
