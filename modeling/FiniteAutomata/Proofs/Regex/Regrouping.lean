import FiniteAutomata.Proofs.Nfa.CanonicalForm
import FiniteAutomata.Proofs.Nfa.Languages
import FiniteAutomata.Proofs.Regex.Tagging
import FiniteAutomata.Regex.Compile

/-!
# Proofs/Regex/Regrouping — three expressions in a row have one automaton

However three automata in a row are grouped, the concatenations differ in the tags of the states
only (`concat?_assoc`).  Regrouping the tags keeps their order (`increasing_regroup`), and names
in the same order are relabelled alike.  The construction trims the parts at different moments,
but relabelling on the way is relabelling at the end; so an expression and its regrouping have
the same numbered automaton (`compile_concat_assoc`), also if nothing gets past one of the parts.
-/

namespace FiniteAutomata

variable {ρ σ τ α : Type}

/-! ## Tags -/

/-- The tags of a state when the last two of three are grouped instead of the first two. -/
def ConcatState.regroup : ConcatState (ConcatState ρ σ) τ → ConcatState ρ (ConcatState σ τ)
  | .left (.left p) => .left p
  | .left (.right q) => .right (.left q)
  | .right r => .right (.right r)

variable [Ordered ρ] [Ordered σ] [Ordered τ] [Ordered α]

/-- **Regrouping keeps the order**: what stood further to the left still does. -/
theorem increasing_regroup (s : OrdSet (ConcatState (ConcatState ρ σ) τ)) :
    IncreasingOn ConcatState.regroup s := by
  rintro ((p | p) | p) - ((q | q) | q) - hpq <;> exact hpq

/-! ## Automata -/

namespace Nfa

section Regroup

variable {n : Nfa ρ α} {m : Nfa σ α} {k : Nfa τ α} {nm : Nfa (ConcatState ρ σ) α}
  {mk : Nfa (ConcatState σ τ) α} {l : Nfa (ConcatState (ConcatState ρ σ) τ) α}
  {r : Nfa (ConcatState ρ (ConcatState σ τ)) α} (hnm : n.concat? m = some nm)
  (hl : nm.concat? k = some l) (hmk : m.concat? k = some mk) (hr : n.concat? mk = some r)

include hnm hl hmk hr

/-- The same edges: those of the three parts, and the silent ones from each part to the next. -/
theorem mem_regroup_transitions {p q : ConcatState ρ (ConcatState σ τ)} {a : Option α} :
    ⟨p, q, a⟩ ∈ (l.mapStates ConcatState.regroup).transitions ↔ ⟨p, q, a⟩ ∈ r.transitions := by
  rw [mapStates, OrdSet.mem_map, mem_map_transitions, mem_concat?_transitions hr]
  simp only [mem_concat?_transitions hl, mem_concat?_transitions hnm, mem_concat?_accepting hnm,
    mem_concat?_transitions hmk, start_concat? hmk]
  grind [ConcatState.regroup]

theorem mapStates_regroup : l.mapStates ConcatState.regroup = r := by
  refine Nfa.ext (OrdSet.ext fun q => ?_) ?_ ?_
    (OrdSet.ext fun _ => mem_regroup_transitions hnm hl hmk hr) (OrdSet.ext fun q => ?_)
  · simp only [mapStates, OrdSet.mem_map, mem_concat?_states hl, mem_concat?_states hnm,
      mem_concat?_states hr, mem_concat?_states hmk]
    grind [ConcatState.regroup]
  · rw [mapStates, (alphabet_concat? hl).2, (alphabet_concat? hr).2, (alphabet_concat? hnm).2]
  · rw [mapStates, start_concat? hl, start_concat? hr, start_concat? hnm]
    rfl
  · simp only [mapStates, OrdSet.mem_map, mem_concat?_accepting hl, mem_concat?_accepting hr,
      mem_concat?_accepting hmk]
    grind [ConcatState.regroup]

end Regroup

/-- **Concatenation is associative** up to the grouping of the tags. -/
theorem concat?_assoc (n : Nfa ρ α) (m : Nfa σ α) (k : Nfa τ α) :
    ((n.concat? m).bind (·.concat? k)).map (mapStates ConcatState.regroup) =
      (m.concat? k).bind n.concat? := by
  by_cases hnm : n.alphabet = m.alphabet
  · obtain ⟨a, ha⟩ := exists_concat? hnm
    have haalph : a.alphabet = m.alphabet := (alphabet_concat? ha).2.trans hnm
    by_cases hmk : m.alphabet = k.alphabet
    · obtain ⟨b, hb⟩ := exists_concat? hmk
      obtain ⟨l, hl⟩ := exists_concat? (haalph.trans hmk)
      obtain ⟨r, hr⟩ := exists_concat? (hnm.trans (alphabet_concat? hb).2.symm)
      rw [ha, hb, Option.bind_some, Option.bind_some, hl, hr, Option.map_some,
        mapStates_regroup ha hl hb hr]
    · have hak : a.alphabet ≠ k.alphabet := haalph ▸ hmk
      rw [ha, Option.bind_some, concat?_eq_none.2 hak, concat?_eq_none.2 hmk]
      rfl
  · rw [concat?_eq_none.2 hnm]
    cases hb : m.concat? k with
    | none => rfl
    | some b =>
      have hnb : n.alphabet ≠ b.alphabet := (alphabet_concat? hb).2 ▸ hnm
      rw [Option.bind_some, concat?_eq_none.2 hnb]
      rfl

/-- **Three automata in a row are relabelled into one**, however they are grouped. -/
theorem relabel_concat?_assoc (n : Nfa ρ α) (m : Nfa σ α) (k : Nfa τ α) :
    ((n.concat? m).bind (·.concat? k)).map relabel =
      ((m.concat? k).bind n.concat?).map relabel := by
  rw [← concat?_assoc, Option.map_map]
  exact Option.map_congr fun _ _ => (relabel_mapStates (increasing_regroup _)).symm

end Nfa

/-! ## Expressions -/

namespace Regex

/-- The recursion gives one automaton for both groupings, or none for either. -/
theorem toNfa?_concat_assoc (alphabet : OrdSet α) (l m r : Regex α) :
    (concat (concat l m) r).toNfa? alphabet = (concat l (concat m r)).toNfa? alphabet := by
  rw [toNfa?_eq_map_relabel, toNfa?_eq_map_relabel, tagged?, tagged?, tagged?, tagged?]
  cases l.tagged? alphabet with
  | none => rfl
  | some a => cases m.tagged? alphabet with
    | none => rfl
    | some b => cases r.tagged? alphabet with
      | none => exact congrArg _ (Option.bind_fun_none (a.concat? b))
      | some c => exact Nfa.relabel_concat?_assoc a b c

/-- What the construction comes to is told by the recursion and the first foreign symbol. -/
theorem outcome_toNfa_congr {alphabet : OrdSet α} {l r : Regex α}
    (hnfa : l.toNfa? alphabet = r.toNfa? alphabet)
    (hforeign : l.foreign? alphabet = r.foreign? alphabet) :
    (l.toNfa alphabet).outcome = (r.toNfa alphabet).outcome := by
  by_cases h : l.symbols ⊆ alphabet
  · obtain ⟨n, hn, -⟩ := exists_toNfa? h
    rw [outcome_toNfa_of_toNfa? hn, outcome_toNfa_of_toNfa? (hnfa ▸ hn)]
  · obtain ⟨c, hc⟩ := exists_foreign? h
    rw [outcome_toNfa_of_foreign? hc, outcome_toNfa_of_foreign? (hforeign ▸ hc)]

/-- Compiling looks at the nondeterministic automaton only. -/
theorem outcome_toDfa_congr {alphabet : OrdSet α} {l r : Regex α}
    (h : (l.toNfa alphabet).outcome = (r.toNfa alphabet).outcome) :
    (l.toDfa alphabet).outcome = (r.toDfa alphabet).outcome := by
  rw [toDfa, toDfa, Run.outcome_bind, Run.outcome_bind, h]

/-- **Grouping does not matter.**  However three expressions in a row are grouped, they have the
same nondeterministic automaton, and so the same deterministic one: equal states, start, edges
and accepting states, or the same foreign symbol that stands in the way of both. -/
theorem compile_concat_assoc (alphabet : OrdSet α) (l m r : Regex α) :
    ((concat (concat l m) r).toNfa alphabet).outcome =
        ((concat l (concat m r)).toNfa alphabet).outcome ∧
      ((concat (concat l m) r).toDfa alphabet).outcome =
        ((concat l (concat m r)).toDfa alphabet).outcome := by
  have hforeign : (concat (concat l m) r).foreign? alphabet =
      (concat l (concat m r)).foreign? alphabet := by
    rw [foreign?, foreign?, letters, letters, letters, letters, List.append_assoc]
  have hnfa := outcome_toNfa_congr (toNfa?_concat_assoc alphabet l m r) hforeign
  exact ⟨hnfa, outcome_toDfa_congr hnfa⟩

end Regex

end FiniteAutomata
