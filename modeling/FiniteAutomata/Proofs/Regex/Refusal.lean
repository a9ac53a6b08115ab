import FiniteAutomata.Proofs.Regex.Comparison

/-!
# Proofs/Regex/Refusal — which error two texts that cannot be compared give

A text is admitted if it is an expression over the alphabet; otherwise exactly one error says why
it is refused (`Refused.unique`), and compiling the text gives that error
(`outcome_compile_eq_error`).  Two texts are compared after both are admitted, so the left text is
asked first and nothing else can fail: their automata are over one alphabet.
-/

namespace FiniteAutomata.Regex

variable {alphabet : OrdSet Char} {text left right : String}

/-- The text is an expression over the alphabet. -/
def Admitted (alphabet : OrdSet Char) (text : String) : Prop :=
  ∃ r, parse text = .ok r ∧ ∀ c ∈ r.symbols, c ∈ alphabet

/-- `Refused alphabet text e`: the error `e` says why the text is no expression over the
alphabet. -/
inductive Refused (alphabet : OrdSet Char) (text : String) : EquivalenceError → Prop
  /-- The text is no expression. -/
  | unreadable {e : ParseError} : parse text = .error e → Refused alphabet text (.parse e)
  /-- These symbols of the expression, and there are some, are all that the alphabet lacks. -/
  | foreign {r : Regex Char} {symbols : OrdSet Char} : parse text = .ok r → symbols ≠ ∅ →
      (∀ c, c ∈ symbols ↔ c ∈ r.symbols ∧ c ∉ alphabet) →
      Refused alphabet text (.foreignSymbols symbols)

/-! ## One text -/

/-- An admitted text is not refused. -/
theorem Admitted.not_refused (h : Admitted alphabet text) (e : EquivalenceError) :
    ¬Refused alphabet text e := by
  obtain ⟨r, hr, hsymbols⟩ := h
  intro hrefused
  cases hrefused with
  | unreadable he => exact nomatch hr.symm.trans he
  | @foreign r' symbols hr' hne hforeign =>
    obtain rfl := Except.ok.inj (hr.symm.trans hr')
    refine hne (OrdSet.ext fun c => iff_of_false (fun hc => ?_) OrdSet.not_mem_empty)
    obtain ⟨hcr, hfresh⟩ := (hforeign c).1 hc
    exact hfresh (hsymbols c hcr)

/-- **A text is refused for one reason only.** -/
theorem Refused.unique {e e' : EquivalenceError} (h : Refused alphabet text e)
    (h' : Refused alphabet text e') : e = e' := by
  cases h with
  | unreadable he =>
    cases h' with
    | unreadable he' => exact congrArg _ (Except.error.inj (he.symm.trans he'))
    | foreign hr' => exact nomatch he.symm.trans hr'
  | foreign hr _ hforeign =>
    cases h' with
    | unreadable he' => exact nomatch hr.symm.trans he'
    | foreign hr' _ hforeign' =>
      obtain rfl := Except.ok.inj (hr.symm.trans hr')
      exact congrArg _ (OrdSet.ext fun c => (hforeign c).trans (hforeign' c).symm)

/-- An outcome that fails with the reason fails with no other error. -/
theorem Refused.error_eq_iff {β : Type} {e e' : EquivalenceError} (h : Refused alphabet text e) :
    (.error e : Except EquivalenceError β) = .error e' ↔ Refused alphabet text e' := by
  rw [Except.error.injEq]
  exact ⟨fun heq => heq ▸ h, h.unique⟩

/-- A text that is not admitted is refused, and compiling it says why. -/
theorem outcome_compile_of_not_admitted (h : ¬Admitted alphabet text) :
    ∃ e, Refused alphabet text e ∧ (compile alphabet text).outcome = .error e := by
  cases hr : parse text with
  | error e =>
    refine ⟨.parse e, .unreadable hr, ?_⟩
    rw [compile, hr]
    exact Run.outcome_bind_of_error rfl _
  | ok r =>
    have hforeign : ¬r.symbols ⊆ alphabet := fun hsymbols => h ⟨r, hr, hsymbols⟩
    have hne : r.symbols \ alphabet ≠ ∅ := by
      intro hempty
      refine hforeign fun c hc => ?_
      by_contra hfresh
      exact OrdSet.not_mem_empty (hempty ▸ OrdSet.mem_sdiff.2 ⟨hc, hfresh⟩)
    obtain ⟨c, hc⟩ := outcome_toDfa_foreign hforeign
    refine ⟨.foreignSymbols (r.symbols \ alphabet),
      .foreign hr hne fun _ => OrdSet.mem_sdiff, ?_⟩
    rw [compile, Run.outcome_bind_of_ok (outcome_read hr), Run.mapError, hc]
    rfl

/-- A text is compiled exactly if it is admitted. -/
theorem exists_outcome_compile : (∃ d, (compile alphabet text).outcome = .ok d) ↔
    Admitted alphabet text := by
  refine ⟨fun ⟨d, hd⟩ => of_outcome_compile hd, fun ⟨r, hr, hsymbols⟩ => ?_⟩
  obtain ⟨d, hd, -⟩ := outcome_compile hr hsymbols
  exact ⟨d, hd⟩

/-! ## Two texts -/

/-- There is an answer exactly for two admitted texts. -/
theorem exists_outcome_equivalent :
    (∃ same, (equivalent alphabet left right).outcome = .ok same) ↔
      Admitted alphabet left ∧ Admitted alphabet right := by
  refine ⟨fun ⟨same, h⟩ => ?_, fun ⟨⟨l, hleft, hl⟩, r, hright, hr⟩ => ?_⟩
  · obtain ⟨ha, hb⟩ := of_outcome_equivalent h
    exact ⟨exists_outcome_compile.1 ha, exists_outcome_compile.1 hb⟩
  · obtain ⟨same, hsame, -⟩ := outcome_equivalent_of_parse hleft hright hl hr
    exact ⟨same, hsame⟩

/-- **The left text is asked first**, and the right one only if the left one is admitted. -/
theorem outcome_equivalent_eq_error {e : EquivalenceError} :
    (equivalent alphabet left right).outcome = .error e ↔
      Refused alphabet left e ∨ Admitted alphabet left ∧ Refused alphabet right e := by
  by_cases hleft : Admitted alphabet left
  · rw [or_iff_right (hleft.not_refused e), and_iff_right hleft]
    obtain ⟨a, ha⟩ := exists_outcome_compile.2 hleft
    by_cases hright : Admitted alphabet right
    · obtain ⟨same, hsame⟩ := exists_outcome_equivalent.2 ⟨hleft, hright⟩
      refine iff_of_false ?_ (hright.not_refused e)
      rw [hsame]
      exact nofun
    · obtain ⟨e', he', hb⟩ := outcome_compile_of_not_admitted hright
      rw [equivalent, Run.outcome_bind_of_ok ha, Run.outcome_bind_of_error hb, he'.error_eq_iff]
  · obtain ⟨e', he', ha⟩ := outcome_compile_of_not_admitted hleft
    rw [equivalent, Run.outcome_bind_of_error ha, he'.error_eq_iff]
    exact ⟨.inl, fun h => h.resolve_right fun h => hleft h.1⟩

/-- **The first text that is refused decides the error.**  Comparing fails exactly with the reason
why the left text is refused, or why the right one is if the left one is admitted; it succeeds
exactly if both are admitted.  Nothing else goes wrong: the automata have one alphabet, and no
construction loses an operand or a state. -/
theorem equivalent_first_refusal (alphabet : OrdSet Char) (left right : String) :
    (∀ e, (equivalent alphabet left right).outcome = .error e ↔
      Refused alphabet left e ∨ Admitted alphabet left ∧ Refused alphabet right e) ∧
    ((∃ same, (equivalent alphabet left right).outcome = .ok same) ↔
      Admitted alphabet left ∧ Admitted alphabet right) ∧
    (equivalent alphabet left right).outcome ≠ .error .alphabetMismatch ∧
    (equivalent alphabet left right).outcome ≠ .error .broken := by
  have hmismatch (text : String) : ¬Refused alphabet text .alphabetMismatch := nofun
  have hbroken (text : String) : ¬Refused alphabet text .broken := nofun
  refine ⟨fun e => outcome_equivalent_eq_error, exists_outcome_equivalent, ?_, ?_⟩
  · rw [Ne, outcome_equivalent_eq_error]
    exact fun h => h.elim (hmismatch left) fun h => hmismatch right h.2
  · rw [Ne, outcome_equivalent_eq_error]
    exact fun h => h.elim (hbroken left) fun h => hbroken right h.2

end FiniteAutomata.Regex
