import FiniteAutomata.Proofs.Dfa.Bisimulation
import FiniteAutomata.Proofs.Dfa.SideBySide
import FiniteAutomata.Proofs.Nfa.Bisimulation
import FiniteAutomata.Proofs.Nfa.Determinization

/-!
# Proofs/Automata/Trimming — what cannot be reached is not missed by the large constructions

The subset construction, the product and the complement make states out of all states they are
given, so an operand that was trimmed beforehand gives far fewer of them.  A bisimulation of the
operands is one of the results: it matches sets of states, and pairs, and keeps the order of both.
So trimming first and trimming last give the same automaton.
-/

namespace FiniteAutomata

variable {σ τ σ' τ' α : Type} [Ordered σ] [Ordered τ] [Ordered σ'] [Ordered τ'] [Ordered α]

/-! ## Sets of states -/

namespace Nfa

variable {R : σ → τ → Prop} {n : Nfa σ α} {m : Nfa τ α}

theorem Bisimulation.exists_mem_accepting (h : Bisimulation R n m) {s : OrdSet σ} {t : OrdSet τ}
    (hst : OrdSet.Matched R s t) (hs : ∃ p ∈ s, p ∈ n.accepting) : ∃ i ∈ t, i ∈ m.accepting := by
  obtain ⟨p, hp, hacc⟩ := hs
  obtain ⟨i, hi, hpi⟩ := hst.1 p hp
  exact ⟨i, hi, (h.accepting_iff hpi).1 hacc⟩

/-- **A bisimulation of two automata matches their sets of states**, in step with every symbol. -/
theorem Bisimulation.toDfa (h : Bisimulation R n m) (hR : OrdSet.Within R n.states m.states) :
    Dfa.Bisimulation (OrdSet.Matched R) n.toDfa m.toDfa := by
  have hbegin : OrdSet.Matched R n.begin m.begin := by
    refine h.matched_closure ?_
    simpa [OrdSet.Matched] using h.start
  refine tabulates_toDfa.bisimulation tabulates_toDfa h.alphabet_eq (.some hbegin)
    hR.powerset.mem_iff h.matched_step ?_
  intro s t hst
  obtain ⟨hs, ht⟩ := hR.powerset hst
  rw [mem_toDfa_accepting, mem_toDfa_accepting, and_iff_right hs, and_iff_right ht,
    OrdSet.meets_iff, OrdSet.meets_iff]
  exact ⟨h.exists_mem_accepting hst, h.flip.exists_mem_accepting hst.flip⟩

/-- The states of a valid automaton that have numbers are states. -/
theorem Valid.within_relabel (hn : n.Valid) :
    OrdSet.Within (fun p i => n.reachable.number? p = some i) n.states n.relabel.states := by
  intro p i hpi
  exact ⟨hn.reachable_subset p (OrdSet.mem_of_number? hpi), mem_relabel_states.2 ⟨p, hpi⟩⟩

/-- **Reachable subsets have reachable states only.** -/
theorem relabel_toDfa (hn : n.Valid) : n.toDfa.relabel? = n.relabel.toDfa.relabel? :=
  (n.bisimulation_relabel.toDfa hn.within_relabel).relabel?_eq (KeepsOrder.number _).set

end Nfa

/-! ## Pairs of states -/

namespace Dfa

variable {R : σ → σ' → Prop} {S : τ → τ' → Prop} {a : Dfa σ α} {a' : Dfa σ' α} {b : Dfa τ α}
  {b' : Dfa τ' α}

theorem within_withDead (hR : OrdSet.Within R a.states a'.states) :
    OrdSet.Within (Option.Rel R) a.withDead a'.withDead := by
  intro p i hpi
  cases hpi with
  | none => simp
  | some hpi => simpa using hR hpi

theorem Bisimulation.complement (h : Bisimulation R a a')
    (hR : OrdSet.Within R a.states a'.states) :
    Bisimulation (Option.Rel R) a.complement a'.complement := by
  refine a.tabulates_complement.bisimulation a'.tabulates_complement h.alphabet_eq (.some h.start)
    (within_withDead hR).mem_iff h.step fun hpi => ?_
  obtain ⟨hp, hi⟩ := within_withDead hR hpi
  rw [mem_complement_accepting, mem_complement_accepting, h.acceptsAt_eq hpi, and_iff_right hp,
    and_iff_right hi]

/-- **Bisimulations of the operands give one of the products.** -/
theorem Bisimulation.product {combine : Bool → Bool → Bool} {p : Dfa (ProductState σ τ) α}
    {p' : Dfa (ProductState σ' τ') α} (ha : Bisimulation R a a') (hb : Bisimulation S b b')
    (hR : OrdSet.Within R a.states a'.states) (hS : OrdSet.Within S b.states b'.states)
    (hp : product? combine a b = some p) (hp' : product? combine a' b' = some p') :
    Bisimulation (fun q j => Option.Rel R q.1 j.1 ∧ Option.Rel S q.2 j.2) p p' := by
  have hpairs : OrdSet.Within (fun q j => Option.Rel R q.1 j.1 ∧ Option.Rel S q.2 j.2)
      p.states p'.states := by
    rw [states_product? hp, states_product? hp']
    exact (within_withDead hR).product (within_withDead hS)
  refine (tabulates_product? hp).bisimulation (tabulates_product? hp') ?_ ?_ hpairs.mem_iff
    (fun hqj c => ⟨ha.step hqj.1 c, hb.step hqj.2 c⟩) fun hqj => ?_
  · rw [(alphabet_product? hp).2, (alphabet_product? hp').2, ha.alphabet_eq]
  · rw [start_product? hp, start_product? hp']
    exact .some ⟨ha.start, hb.start⟩
  · obtain ⟨hq, hj⟩ := hpairs hqj
    rw [states_product? hp, OrdSet.mem_product] at hq
    rw [states_product? hp', OrdSet.mem_product] at hj
    rw [mem_product?_accepting hp, mem_product?_accepting hp', ha.acceptsAt_eq hqj.1,
      hb.acceptsAt_eq hqj.2, and_iff_right hq, and_iff_right hj]

variable {e : Dfa Nat α}

/-- The states of a valid automaton that have numbers are states. -/
theorem Valid.within_relabel? (ha : a.Valid) (he : a.relabel? = some e) :
    OrdSet.Within (fun p i => a.present.number? p = some i) a.states e.states := by
  intro p i hpi
  refine ⟨?_, (mem_relabel?_states he).2 ⟨p, hpi⟩⟩
  obtain ⟨w, -, hw⟩ := mem_reachable_iff.1 (mem_present.1 (OrdSet.mem_of_number? hpi))
  exact ha.run_mem hw

theorem relabel_complement (ha : a.Valid) (he : a.relabel? = some e) :
    a.complement.relabel? = e.complement.relabel? :=
  ((bisimulation_relabel? he).complement (ha.within_relabel? he)).relabel?_eq
    (KeepsOrder.number _).option

/-- **Reachable pairs have reachable states only.** -/
theorem relabel_product {combine : Bool → Bool → Bool} {p : Dfa (ProductState σ τ) α}
    {p' : Dfa (ProductState Nat Nat) α} {e' : Dfa Nat α} (ha : a.Valid) (hb : b.Valid)
    (he : a.relabel? = some e) (he' : b.relabel? = some e') (hp : product? combine a b = some p)
    (hp' : product? combine e e' = some p') : p.relabel? = p'.relabel? :=
  ((bisimulation_relabel? he).product (bisimulation_relabel? he') (ha.within_relabel? he)
    (hb.within_relabel? he') hp hp').relabel?_eq
    ((KeepsOrder.number _).option.pair (KeepsOrder.number _).option)

end Dfa

/-! ## Trimming first or last -/

/-- **Trimming an operand does not change the trimmed result** of the subset construction, the
product or the complement: there is one in either case, and it is the same automaton. -/
theorem trimmed_first {ρ : Type} [Ordered ρ] {n : Nfa ρ α} {a : Dfa σ α} {b : Dfa τ α}
    (hn : n.Valid) (ha : a.Valid) (hb : b.Valid) (halphabet : a.alphabet = b.alphabet)
    (combine : Bool → Bool → Bool) :
    (∃ d, n.toDfa.relabel? = some d ∧ n.relabel.toDfa.relabel? = some d) ∧
    ∃ a' b', a.relabel? = some a' ∧ b.relabel? = some b' ∧
      (∃ p p' d, Dfa.product? combine a b = some p ∧ Dfa.product? combine a' b' = some p' ∧
        p.relabel? = some d ∧ p'.relabel? = some d) ∧
      ∃ d, a.complement.relabel? = some d ∧ a'.complement.relabel? = some d := by
  obtain ⟨a', ha'⟩ := Dfa.exists_relabel? ha
  obtain ⟨b', hb'⟩ := Dfa.exists_relabel? hb
  have halphabet' : a'.alphabet = b'.alphabet := by
    rw [Dfa.alphabet_relabel? ha', Dfa.alphabet_relabel? hb', halphabet]
  refine ⟨?_, a', b', ha', hb', ?_, ?_⟩
  · obtain ⟨d, hd⟩ := Dfa.exists_relabel? (Nfa.valid_toDfa hn)
    exact ⟨d, hd, (Nfa.relabel_toDfa hn).symm.trans hd⟩
  · obtain ⟨p, hp⟩ := Dfa.exists_product? combine halphabet
    obtain ⟨p', hp'⟩ := Dfa.exists_product? combine halphabet'
    obtain ⟨d, hd⟩ := Dfa.exists_relabel? (Dfa.valid_product? hp ha hb)
    exact ⟨p, p', d, hp, hp', hd, (Dfa.relabel_product ha hb ha' hb' hp hp').symm.trans hd⟩
  · obtain ⟨d, hd⟩ := Dfa.exists_relabel? (Dfa.valid_complement ha)
    exact ⟨d, hd, (Dfa.relabel_complement ha ha').symm.trans hd⟩

/-- Nothing leads to `7`. -/
def overgrown : Nfa Nat Char where
  states := .ofList [3, 5, 7]
  alphabet := .ofList ['a']
  start := 5
  transitions := .ofList [.reading 5 3 'a', .silent 3 5, .reading 7 3 'a']
  accepting := .ofList [3, 7]

/-- Nothing leads to `0`, and `4` leads into the dead state. -/
def overgrownDfa : Dfa Nat Char where
  states := .ofList [0, 2, 4]
  alphabet := .ofList ['a']
  start := some 2
  rows := .ofList [(0, .ofList [('a', 4)]), (2, .ofList [('a', 4)])]
  accepting := .ofList [0, 4]

/-- Half of the subsets have `7` in them; once it is gone they leave no trace. -/
theorem trimmed_first_overgrown :
    (overgrown.Valid ∧ overgrownDfa.Valid) ∧
    (overgrown.toDfa.states.size = 8 ∧ overgrown.relabel.toDfa.states.size = 4 ∧
      ∃ d, overgrown.toDfa.relabel? = some d ∧ overgrown.relabel.toDfa.relabel? = some d) ∧
    ∃ a', overgrownDfa.relabel? = some a' ∧
      (∃ p p' d, Dfa.product? xor overgrownDfa overgrownDfa = some p ∧
        Dfa.product? xor a' a' = some p' ∧ p.relabel? = some d ∧ p'.relabel? = some d) ∧
      ∃ d, overgrownDfa.complement.relabel? = some d ∧ a'.complement.relabel? = some d := by
  have hn : overgrown.Valid := by decide
  have hd : overgrownDfa.Valid := by decide
  obtain ⟨hsubsets, a', b', ha', hb', hpairs⟩ := trimmed_first hn hd hd rfl xor
  obtain rfl := Option.some.inj (ha'.symm.trans hb')
  have hall : overgrown.toDfa.states.size = 8 := by decide +kernel
  have hfew : overgrown.relabel.toDfa.states.size = 4 := by decide +kernel
  exact ⟨⟨hn, hd⟩, ⟨hall, hfew, hsubsets⟩, a', ha', hpairs⟩

end FiniteAutomata
