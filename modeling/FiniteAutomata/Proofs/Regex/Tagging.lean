import FiniteAutomata.Proofs.Nfa.Congruence
import FiniteAutomata.Proofs.Regex.Construction
import FiniteAutomata.Regex.Tagged

/-!
# Proofs/Regex/Tagging — relabelling on the way, or once at the end

The construction relabels every automaton it has made, so that states never grow with the
expression.  It could as well keep the tags and relabel the last automaton only
(`toNfa?_eq_map_relabel`): a combinator of relabelled operands and one of the operands themselves
are relabelled into the same automaton.  The stack machine, which has a failure of its own for an
operand that is not there, stops exactly where the plain construction gives nothing.
-/

namespace FiniteAutomata.Regex

variable {α : Type} [Ordered α]

/-- An operation that does not mind whether its operands are relabelled need not be given relabelled
ones. -/
theorem relabelled_operands {σ τ υ υ' : Type} [Ordered σ] [Ordered τ] [Ordered υ] [Ordered υ']
    {combine : Nfa Nat α → Nfa Nat α → Option (Nfa υ α)}
    {combine' : Nfa σ α → Nfa τ α → Option (Nfa υ' α)}
    (h : ∀ n m, (combine n.relabel m.relabel).map Nfa.relabel = (combine' n m).map Nfa.relabel)
    (x : Option (Nfa σ α)) (y : Option (Nfa τ α)) :
    (do return (← combine (← x.map Nfa.relabel) (← y.map Nfa.relabel)).relabel) =
      (do combine' (← x) (← y)).map Nfa.relabel := by
  cases x with
  | none => rfl
  | some n => cases y with
    | none => rfl
    | some m => exact Option.map_eq_bind.symm.trans (h n m)

/-- **Tagged states can wait for their numbers**: relabelling on the way is relabelling at the
end. -/
theorem toNfa?_eq_map_relabel (alphabet : OrdSet α) (r : Regex α) :
    r.toNfa? alphabet = (r.tagged? alphabet).map Nfa.relabel := by
  induction r with
  | empty | epsilon | symbol => rfl
  | concat l r ihl ihr =>
    rw [toNfa?, tagged?, ihl, ihr]
    exact relabelled_operands Nfa.relabel_concat? _ _
  | union l r ihl ihr =>
    rw [toNfa?, tagged?, ihl, ihr]
    exact relabelled_operands Nfa.relabel_union? _ _
  | star r ih =>
    rw [toNfa?, tagged?, ih]
    cases r.tagged? alphabet with
    | none => rfl
    | some n => exact congrArg some n.relabel_star

/-- There is a tagged automaton exactly for an expression over the alphabet. -/
theorem tagged?_eq_none {alphabet : OrdSet α} {r : Regex α} :
    r.tagged? alphabet = none ↔ ¬r.symbols ⊆ alphabet := by
  rw [← Option.map_eq_none_iff (f := Nfa.relabel), ← toNfa?_eq_map_relabel]
  refine ⟨fun hnone h => ?_, toNfa?_eq_none⟩
  obtain ⟨n, hn, -⟩ := exists_toNfa? h
  exact nomatch hnone.symm.trans hn

theorem outcome_toNfa_foreign_iff {alphabet : OrdSet α} {r : Regex α} :
    (∃ c, (r.toNfa alphabet).outcome = .error (.foreignSymbol c)) ↔ r.tagged? alphabet = none := by
  rw [tagged?_eq_none]
  refine ⟨fun hex h => ?_, outcome_toNfa_foreign⟩
  obtain ⟨c, hc⟩ := hex
  obtain ⟨n, hn, -⟩ := outcome_toNfa h
  exact nomatch hc.symm.trans hn

/-- **Relabelling intermediate automata does not change the result.**  There is a union and a
concatenation exactly over one alphabet, and all three combinators are relabelled into the same
automaton whether their operands were or not.  So the construction gives the plain automaton with
tagged states, relabelled once, and it stops at a foreign symbol exactly if there is none. -/
theorem relabel_once {σ τ : Type} [Ordered σ] [Ordered τ] (n : Nfa σ α) (m : Nfa τ α)
    (alphabet : OrdSet α) (r : Regex α) :
    (((n.union? m).isSome ↔ n.alphabet = m.alphabet) ∧
      (n.relabel.union? m.relabel).map Nfa.relabel = (n.union? m).map Nfa.relabel) ∧
    (((n.concat? m).isSome ↔ n.alphabet = m.alphabet) ∧
      (n.relabel.concat? m.relabel).map Nfa.relabel = (n.concat? m).map Nfa.relabel) ∧
    n.relabel.star.relabel = n.star.relabel ∧
    (r.toNfa alphabet).outcome.toOption = (r.tagged? alphabet).map Nfa.relabel ∧
    ((∃ c, (r.toNfa alphabet).outcome = .error (.foreignSymbol c)) ↔
      r.tagged? alphabet = none) := by
  refine ⟨⟨Nfa.isSome_union?_iff, n.relabel_union? m⟩, ⟨Nfa.isSome_concat?_iff, n.relabel_concat? m⟩,
    n.relabel_star, ?_, outcome_toNfa_foreign_iff⟩
  rw [outcome_toNfa_toOption, toNfa?_eq_map_relabel]

end FiniteAutomata.Regex
