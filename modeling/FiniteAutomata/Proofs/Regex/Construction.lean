import FiniteAutomata.Proofs.Regex.Realization
import FiniteAutomata.Regex.Workbench

/-!
# Proofs/Regex/Construction — the construction with a stack

A visit leaves the automaton of the recursion on top of what was built before, whatever is left to
do afterwards (`turns_visit`); at a symbol that the alphabet does not have the construction stops,
before it looks at anything further to the right (`comesTo_foreign`).  So the stack follows the
recursion turn by turn, and never lacks an operand.
-/

namespace FiniteAutomata.Regex

variable {α : Type} [Ordered α]

/-! ## Foreign symbols -/

section Foreign

variable {alphabet : OrdSet α} {l r : Regex α} {c : α}

theorem foreign?_eq_none : r.foreign? alphabet = none ↔ r.symbols ⊆ alphabet := by
  simp [foreign?, OrdSet.subset_def]

theorem exists_foreign? (h : ¬r.symbols ⊆ alphabet) : ∃ c, r.foreign? alphabet = some c :=
  Option.ne_none_iff_exists'.1 fun hnone => h (foreign?_eq_none.1 hnone)

theorem notMem_of_foreign? (h : r.foreign? alphabet = some c) : c ∉ alphabet := by
  intro hc
  have hout := List.find?_some h
  simp [OrdSet.contains_iff.2 hc] at hout

/-- The right operand matters only if the left one has no foreign symbol. -/
theorem find?_foreign_append :
    (l.letters ++ r.letters).find? (fun c => !alphabet.contains c) = some c ↔
    l.foreign? alphabet = some c ∨ l.symbols ⊆ alphabet ∧ r.foreign? alphabet = some c := by
  rw [List.find?_append, Option.or_eq_some_iff, ← foreign?_eq_none]
  rfl

end Foreign

/-! ## Turns -/

namespace Workbench

/-- Visits of two operands leave the automata of both, that of the right one on top. -/
theorem turns_operands {alphabet : OrdSet α} {l r : Regex α} {a b : Nfa Nat α}
    (hl : ∀ tasks built, Turns alphabet l.turns ⟨.visit l :: tasks, built⟩ ⟨tasks, a :: built⟩)
    (hr : ∀ tasks built, Turns alphabet r.turns ⟨.visit r :: tasks, built⟩ ⟨tasks, b :: built⟩)
    (tasks : List (Task α)) (built : List (Nfa Nat α)) :
    Turns alphabet (l.turns + r.turns) ⟨.visit l :: .visit r :: tasks, built⟩
      ⟨tasks, b :: a :: built⟩ :=
  (hl (.visit r :: tasks) built).append (hr tasks (a :: built))

/-- **A visit leaves the automaton of the recursion on the stack**, whatever else is on it. -/
theorem turns_visit {alphabet : OrdSet α} {r : Regex α} {n : Nfa Nat α}
    (hn : r.toNfa? alphabet = some n) (tasks : List (Task α)) (built : List (Nfa Nat α)) :
    Turns alphabet r.turns ⟨.visit r :: tasks, built⟩ ⟨tasks, n :: built⟩ := by
  -- for all tasks and stacks: the right operand is visited on top of the left one's automaton
  induction r generalizing n tasks built with
  | empty | epsilon =>
    obtain rfl := Option.some.inj hn
    exact .more rfl (.none _)
  | symbol c =>
    obtain ⟨k, hk, rfl⟩ := Option.map_eq_some_iff.1 hn
    refine .more ?_ (.none _)
    rw [turn, Run.outcome_ofOption_bind hk]
    rfl
  | concat l r ihl ihr =>
    obtain ⟨a, b, k, ha, hb, hk, rfl⟩ := toNfa?_concat_eq_some.1 hn
    have hoperands := turns_operands (ihl ha) (ihr hb) (.concat :: tasks) built
    refine .more rfl (hoperands.append (.more ?_ (.none _)))
    rw [turn, Run.outcome_ofOption_bind hk]
    rfl
  | union l r ihl ihr =>
    obtain ⟨a, b, k, ha, hb, hk, rfl⟩ := toNfa?_union_eq_some.1 hn
    have hoperands := turns_operands (ihl ha) (ihr hb) (.union :: tasks) built
    refine .more rfl (hoperands.append (.more ?_ (.none _)))
    rw [turn, Run.outcome_ofOption_bind hk]
    rfl
  | star r ih =>
    obtain ⟨a, ha, rfl⟩ := toNfa?_star_eq_some.1 hn
    have hoperand := ih ha (.star :: tasks) built
    exact .more rfl (hoperand.append (.more rfl (.none _)))

/-- Visits of two operands come to the first foreign symbol of both. -/
theorem comesTo_operands {alphabet : OrdSet α} {l r : Regex α} {c : α}
    (hc : (l.letters ++ r.letters).find? (fun c => !alphabet.contains c) = some c)
    (hl : l.foreign? alphabet = some c → ∀ tasks built,
      ComesTo alphabet l.turns ⟨.visit l :: tasks, built⟩ c)
    (hr : r.foreign? alphabet = some c → ∀ tasks built,
      ComesTo alphabet r.turns ⟨.visit r :: tasks, built⟩ c)
    (tasks : List (Task α)) (built : List (Nfa Nat α)) :
    ComesTo alphabet (l.turns + r.turns) ⟨.visit l :: .visit r :: tasks, built⟩ c := by
  rcases find?_foreign_append.1 hc with hleft | ⟨hleft, hright⟩
  · exact (hl hleft _ _).after (.none _) (by omega)
  · obtain ⟨a, ha, -⟩ := exists_toNfa? hleft
    exact (hr hright tasks (a :: built)).after (turns_visit ha _ _) (Nat.le_refl _)

/-- **A visit comes to the first foreign symbol**, if there is one, before its turns are over. -/
theorem comesTo_foreign {alphabet : OrdSet α} {r : Regex α} {c : α}
    (hc : r.foreign? alphabet = some c) (tasks : List (Task α)) (built : List (Nfa Nat α)) :
    ComesTo alphabet r.turns ⟨.visit r :: tasks, built⟩ c := by
  induction r generalizing tasks built with
  | empty | epsilon => exact nomatch hc
  | symbol d =>
    obtain rfl := List.mem_singleton.1 (List.mem_of_find?_eq_some hc)
    exact ⟨0, Nat.one_pos, tasks, built, .none _⟩
  | concat l r ihl ihr =>
    have hoperands := comesTo_operands hc ihl ihr (.concat :: tasks) built
    exact hoperands.after (.more rfl (.none _)) (by rw [turns]; omega)
  | union l r ihl ihr =>
    have hoperands := comesTo_operands hc ihl ihr (.union :: tasks) built
    exact hoperands.after (.more rfl (.none _)) (by rw [turns]; omega)
  | star r ih =>
    exact (ih hc (.star :: tasks) built).after (.more rfl (.none _)) (by rw [turns]; omega)

/-- **Turns do not change what the construction comes to.** -/
theorem Turns.outcome_assemble {alphabet : OrdSet α} {k : Nat} {b b' : Workbench α}
    (h : Turns alphabet k b b') :
    (assemble alphabet b.tasks b.built).outcome =
      (assemble alphabet b'.tasks b'.built).outcome := by
  induction h with
  | none => rfl
  | @more _ b _ _ hturn _ ih =>
    obtain ⟨_ | ⟨task, tasks⟩, built⟩ := b
    · exact nomatch hturn
    · rw [assemble_cons, Run.outcome_bind_of_ok hturn, ih]

end Workbench

/-! ## The outcome -/

variable {β : Type}

/-- Without a foreign symbol the automaton of the recursion is all that is left on the stack. -/
theorem outcome_assemble_of_toNfa? {alphabet : OrdSet α} {r : Regex α} {n : Nfa Nat α}
    (hn : r.toNfa? alphabet = some n) : (assemble alphabet [.visit r] []).outcome = .ok [n] := by
  rw [(Workbench.turns_visit hn [] []).outcome_assemble, assemble, Run.outcome_pure]

/-- The first foreign symbol is what is reported. -/
theorem outcome_assemble_of_foreign? {alphabet : OrdSet α} {r : Regex α} {c : α}
    (hc : r.foreign? alphabet = some c) :
    (assemble alphabet [.visit r] []).outcome = .error (.foreignSymbol c) := by
  obtain ⟨_, -, tasks, built, h⟩ := Workbench.comesTo_foreign hc [] []
  rw [h.outcome_assemble, assemble, Nfa.symbol?, if_neg (notMem_of_foreign? hc)]
  exact Run.outcome_bind_of_error rfl _

/-- The construction gives the automaton of the recursion. -/
theorem outcome_toNfa_of_toNfa? {alphabet : OrdSet α} {r : Regex α} {n : Nfa Nat α}
    (hn : r.toNfa? alphabet = some n) : (r.toNfa alphabet).outcome = .ok n := by
  rw [toNfa, Run.outcome_bind_of_ok (outcome_assemble_of_toNfa? hn), Run.outcome_pure]

theorem outcome_toNfa {alphabet : OrdSet α} {r : Regex α} (h : r.symbols ⊆ alphabet) :
    ∃ n, (r.toNfa alphabet).outcome = .ok n ∧ n.Realizes alphabet r := by
  obtain ⟨n, hn, hr⟩ := exists_toNfa? h
  exact ⟨n, outcome_toNfa_of_toNfa? hn, hr⟩

/-- The construction stops at the first foreign symbol. -/
theorem outcome_toNfa_of_foreign? {alphabet : OrdSet α} {r : Regex α} {c : α}
    (hc : r.foreign? alphabet = some c) :
    (r.toNfa alphabet).outcome = .error (.foreignSymbol c) :=
  Run.outcome_bind_of_error (outcome_assemble_of_foreign? hc) _

theorem outcome_toNfa_foreign {alphabet : OrdSet α} {r : Regex α} (h : ¬r.symbols ⊆ alphabet) :
    ∃ c, (r.toNfa alphabet).outcome = .error (.foreignSymbol c) := by
  obtain ⟨c, hc⟩ := exists_foreign? h
  exact ⟨c, outcome_toNfa_of_foreign? hc⟩

/-- The stack machine gives what the recursion does. -/
theorem outcome_toNfa_toOption (alphabet : OrdSet α) (r : Regex α) :
    (r.toNfa alphabet).outcome.toOption = r.toNfa? alphabet := by
  by_cases h : r.symbols ⊆ alphabet
  · obtain ⟨n, hn, -⟩ := exists_toNfa? h
    rw [outcome_toNfa_of_toNfa? hn, hn]
    rfl
  · obtain ⟨c, hc⟩ := outcome_toNfa_foreign h
    rw [hc, toNfa?_eq_none h]
    rfl

/-- **The stack follows the recursion**, for every expression, and is done in a number of turns
that the expression tells.  If the recursion gives an automaton, no turn fails, and at the end the
stack holds this automaton only.  If it gives none, the construction stops at the first symbol
from left to right that the alphabet does not have; there is no other way for it to fail. -/
theorem stack_follows_recursion (alphabet : OrdSet α) (r : Regex α) :
    (r.toNfa alphabet).outcome.toOption = r.toNfa? alphabet ∧
    ((∃ n, r.toNfa? alphabet = some n ∧ r.symbols ⊆ alphabet ∧
        Workbench.Turns alphabet r.turns (.start r) ⟨[], [n]⟩ ∧
        (assemble alphabet [.visit r] []).outcome = .ok [n] ∧
        (r.toNfa alphabet).outcome = .ok n) ∨
      ∃ c, r.toNfa? alphabet = none ∧ r.foreign? alphabet = some c ∧
        Workbench.ComesTo alphabet r.turns (.start r) c ∧
        (assemble alphabet [.visit r] []).outcome = .error (.foreignSymbol c) ∧
        (r.toNfa alphabet).outcome = .error (.foreignSymbol c)) := by
  refine ⟨outcome_toNfa_toOption alphabet r, ?_⟩
  by_cases h : r.symbols ⊆ alphabet
  · obtain ⟨n, hn, -⟩ := exists_toNfa? h
    exact .inl ⟨n, hn, h, Workbench.turns_visit hn [] [], outcome_assemble_of_toNfa? hn,
      outcome_toNfa_of_toNfa? hn⟩
  · obtain ⟨c, hc⟩ := exists_foreign? h
    exact .inr ⟨c, toNfa?_eq_none h, hc, Workbench.comesTo_foreign hc [] [],
      outcome_assemble_of_foreign? hc, outcome_toNfa_of_foreign? hc⟩

/-- What stops at a foreign symbol and nowhere else has a result exactly without one. -/
theorem refused_iff_foreign {alphabet : OrdSet α} {r : Regex α} {x : Run (BuildError α) β}
    {P : β → Prop} (hok : r.symbols ⊆ alphabet → ∃ b, x.outcome = .ok b ∧ P b)
    (hforeign : ¬r.symbols ⊆ alphabet → ∃ c, x.outcome = .error (.foreignSymbol c)) :
    ((∃ c, x.outcome = .error (.foreignSymbol c)) ↔ ∃ c ∈ r.symbols, c ∉ alphabet) ∧
    ((∃ b, x.outcome = .ok b ∧ P b) ↔ ∀ c ∈ r.symbols, c ∈ alphabet) := by
  by_cases h : r.symbols ⊆ alphabet
  · obtain ⟨b, hb, hP⟩ := hok h
    refine ⟨iff_of_false (fun hex => ?_) (fun hex => ?_), iff_of_true ⟨b, hb, hP⟩ h⟩
    · obtain ⟨c, hc⟩ := hex
      exact nomatch hb.symm.trans hc
    · obtain ⟨c, hc, hfresh⟩ := hex
      exact hfresh (h c hc)
  · obtain ⟨c, hc⟩ := hforeign h
    refine ⟨iff_of_true ⟨c, hc⟩ ?_, iff_of_false (fun hex => ?_) h⟩
    · simpa [OrdSet.subset_def] using h
    · obtain ⟨b, hb, -⟩ := hex
      exact nomatch hb.symm.trans hc

/-- **The construction refuses exactly the expressions with a foreign symbol**, wherever it occurs,
and turns every other one into a valid automaton for the same words. -/
theorem toNfa_accepts_iff (alphabet : OrdSet α) (r : Regex α) :
    ((∃ c, (r.toNfa alphabet).outcome = .error (.foreignSymbol c)) ↔
      ∃ c ∈ r.symbols, c ∉ alphabet) ∧
    ((∃ n, (r.toNfa alphabet).outcome = .ok n ∧ n.Valid ∧ ∀ w, n.accepts w = r.accepts w) ↔
      ∀ c ∈ r.symbols, c ∈ alphabet) := by
  refine refused_iff_foreign (fun h => ?_) outcome_toNfa_foreign
  obtain ⟨n, hn, hr⟩ := outcome_toNfa h
  exact ⟨n, hn, hr.valid, hr.accepts_iff⟩

end FiniteAutomata.Regex
