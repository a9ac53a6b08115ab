import FiniteAutomata.Proofs.Dfa.SideBySide
import FiniteAutomata.Proofs.Regex.Compilation
import FiniteAutomata.Regex.Equivalence

/-!
# Proofs/Regex/Comparison — two texts are equivalent if no word tells them apart

A text is compiled exactly if it is an expression over the alphabet (`outcome_compile`,
`of_outcome_compile`).  The automata of two such texts are valid over one alphabet, so their
symmetric difference exists, and it is empty exactly if the expressions accept the same words
(`outcome_equivalent_of_parse`).  The alphabet only decides whether there is an answer.
-/

namespace FiniteAutomata.Regex

variable {alphabet : OrdSet Char} {text left right : String}

/-- Two expressions accept alike what both denote or neither does. -/
theorem accepts_eq_accepts {α : Type} [DecidableEq α] {l r : Regex α} {w : List α} :
    l.accepts w = r.accepts w ↔ (l.Denotes w ↔ r.Denotes w) := by
  rw [Bool.eq_iff_iff, accepts_iff, accepts_iff]

/-- A text that is an expression is read. -/
theorem outcome_read {r : Regex Char} (hr : parse text = .ok r) :
    ((Run.ofExcept (parse text)).mapError EquivalenceError.parse).outcome = .ok r := by
  rw [hr]
  rfl

/-- A text over the alphabet is compiled. -/
theorem outcome_compile {r : Regex Char} (hr : parse text = .ok r) (h : r.symbols ⊆ alphabet) :
    ∃ d, (compile alphabet text).outcome = .ok d ∧ d.Compiled alphabet r := by
  obtain ⟨d, hd, hcompiled⟩ := outcome_toDfa h
  refine ⟨d, ?_, hcompiled⟩
  rw [compile, Run.outcome_bind_of_ok (outcome_read hr), Run.mapError, hd]
  rfl

/-- What is compiled was a text over the alphabet. -/
theorem of_outcome_compile {d : Dfa Nat Char} (hd : (compile alphabet text).outcome = .ok d) :
    ∃ r, parse text = .ok r ∧ r.symbols ⊆ alphabet := by
  cases hr : parse text with
  | error e =>
    rw [compile, hr, Run.outcome_bind_of_error rfl] at hd
    exact nomatch hd
  | ok r =>
    refine ⟨r, rfl, Decidable.byContradiction fun hforeign => ?_⟩
    obtain ⟨c, hc⟩ := outcome_toDfa_foreign hforeign
    rw [compile, Run.outcome_bind_of_ok (outcome_read hr), Run.mapError, hc] at hd
    exact nomatch hd

/-- **The answer for two texts over the alphabet** is whether their expressions accept the same
words. -/
theorem outcome_equivalent_of_parse {l r : Regex Char} (hleft : parse left = .ok l)
    (hright : parse right = .ok r) (hl : l.symbols ⊆ alphabet) (hr : r.symbols ⊆ alphabet) :
    ∃ same, (equivalent alphabet left right).outcome = .ok same ∧
      (same = true ↔ ∀ w, l.accepts w = r.accepts w) := by
  obtain ⟨a, ha, hal⟩ := outcome_compile hleft hl
  obtain ⟨b, hb, hbr⟩ := outcome_compile hright hr
  have halphabet : a.alphabet = b.alphabet := hal.alphabet_eq.trans hbr.alphabet_eq.symm
  obtain ⟨p, hp⟩ : ∃ p, Dfa.symmetricDifference? a b = some p := Dfa.exists_product? xor halphabet
  refine ⟨p.isEmpty, ?_, ?_⟩
  · rw [equivalent, Run.outcome_bind_of_ok ha, Run.outcome_bind_of_ok hb,
      Run.outcome_bind_of_ok rfl, Run.outcome_ofOption_bind hp, Run.outcome_bind_of_ok rfl,
      Run.outcome_bind_of_ok rfl, Run.outcome_pure]
  · rw [Dfa.isEmpty_symmetricDifference? hp hal.valid hbr.valid]
    -- the automata compare characters by their order, so both sides are read as languages
    simp only [hal.accepts_eq, hbr.accepts_eq, accepts_eq_accepts]

/-- There is an answer for compiled texts only. -/
theorem of_outcome_equivalent {same : Bool}
    (h : (equivalent alphabet left right).outcome = .ok same) :
    (∃ a, (compile alphabet left).outcome = .ok a) ∧
      ∃ b, (compile alphabet right).outcome = .ok b := by
  cases ha : (compile alphabet left).outcome with
  | error e =>
    rw [equivalent, Run.outcome_bind_of_error ha] at h
    exact nomatch h
  | ok a =>
    cases hb : (compile alphabet right).outcome with
    | error e =>
      rw [equivalent, Run.outcome_bind_of_ok ha, Run.outcome_bind_of_error hb] at h
      exact nomatch h
    | ok b => exact ⟨⟨a, rfl⟩, ⟨b, rfl⟩⟩

/-- **The answer tells whether two expressions accept the same words**, and there is one exactly for
texts of expressions over the alphabet. -/
theorem outcome_equivalent_iff {same : Bool} :
    (equivalent alphabet left right).outcome = .ok same ↔
      ∃ l r, parse left = .ok l ∧ parse right = .ok r ∧ l.symbols ⊆ alphabet ∧
        r.symbols ⊆ alphabet ∧ (same = true ↔ ∀ w, l.accepts w = r.accepts w) := by
  refine ⟨?_, ?_⟩
  · intro h
    obtain ⟨⟨a, ha⟩, ⟨b, hb⟩⟩ := of_outcome_equivalent h
    obtain ⟨l, hleft, hl⟩ := of_outcome_compile ha
    obtain ⟨r, hright, hr⟩ := of_outcome_compile hb
    obtain ⟨same', hsame, hiff⟩ := outcome_equivalent_of_parse hleft hright hl hr
    obtain rfl := Except.ok.inj (hsame.symm.trans h)
    exact ⟨l, r, hleft, hright, hl, hr, hiff⟩
  · intro h
    obtain ⟨l, r, hleft, hright, hl, hr, hiff⟩ := h
    obtain ⟨same', hsame, hiff'⟩ := outcome_equivalent_of_parse hleft hright hl hr
    have heq : same' = same := Bool.eq_iff_iff.2 (hiff'.trans hiff.symm)
    rw [hsame, heq]

/-- **Equivalence is equality of languages.**  There is an answer exactly if both texts are
expressions over the alphabet, and it is positive exactly if these accept the same words of any
characters; so a larger alphabet gives the same answer. -/
theorem equivalent_iff_same_words (alphabet : OrdSet Char) (left right : String) (same : Bool) :
    ((equivalent alphabet left right).outcome = .ok same ↔
      ∃ l r, parse left = .ok l ∧ parse right = .ok r ∧ l.symbols ⊆ alphabet ∧
        r.symbols ⊆ alphabet ∧ (same = true ↔ ∀ w, l.accepts w = r.accepts w)) ∧
    ∀ larger, alphabet ⊆ larger → (equivalent alphabet left right).outcome = .ok same →
      (equivalent larger left right).outcome = .ok same := by
  refine ⟨outcome_equivalent_iff, fun larger hlarger h => ?_⟩
  obtain ⟨l, r, hleft, hright, hl, hr, hiff⟩ := outcome_equivalent_iff.1 h
  have hl' : l.symbols ⊆ larger := fun c hc => hlarger c (hl c hc)
  have hr' : r.symbols ⊆ larger := fun c hc => hlarger c (hr c hc)
  exact outcome_equivalent_iff.2 ⟨l, r, hleft, hright, hl', hr', hiff⟩

/-- Alternatives may change places, and a symbol that occurs nowhere does not matter. -/
theorem equivalent_swapped_alternatives :
    (equivalent (.ofList ['a', 'b']) "a|b" "b|a").outcome = .ok true ∧
      (equivalent (.ofList ['a', 'b', 'c']) "a|b" "b|a").outcome = .ok true := by
  have hsame (w : List Char) : (Regex.union (.symbol 'a') (.symbol 'b')).accepts w =
      (Regex.union (.symbol 'b') (.symbol 'a')).accepts w := by
    rw [accepts_eq_accepts, denotes_union, denotes_union, or_comm]
  have hab : (equivalent (.ofList ['a', 'b']) "a|b" "b|a").outcome = .ok true :=
    (equivalent_iff_same_words _ _ _ _).1.2
      ⟨_, _, by rfl, by rfl, by decide, by decide, iff_of_true rfl hsame⟩
  exact ⟨hab, (equivalent_iff_same_words _ _ _ _).2 _ (by decide) hab⟩

end FiniteAutomata.Regex
