import FiniteAutomata.Proofs.Nfa.Combination
import FiniteAutomata.Proofs.Nfa.Relabelling
import FiniteAutomata.Regex.Marked
import FiniteAutomata.Regex.Thompson

/-!
# Proofs/Regex/Realization — an automaton for an expression, by recursion

Every automaton on the way is over the given alphabet, valid and accepts what its expression
denotes (`Nfa.Realizes`), and each combinator followed by relabelling hands this on.  The
recursion therefore builds such an automaton for every expression over the alphabet
(`exists_toNfa?`), and for no other.
-/

namespace FiniteAutomata

variable {α : Type} [Ordered α]

/-- The automaton is over the alphabet, valid, and recognizes what the expression denotes. -/
structure Nfa.Realizes {σ : Type} [Ordered σ] (n : Nfa σ α) (alphabet : OrdSet α) (r : Regex α) :
    Prop where
  alphabet_eq : n.alphabet = alphabet
  valid : n.Valid
  recognizes_iff : ∀ w, n.Recognizes w ↔ r.Denotes w

namespace Nfa.Realizes

variable {σ τ : Type} [Ordered σ] [Ordered τ] {n : Nfa σ α} {m : Nfa τ α} {alphabet : OrdSet α}
  {l r : Regex α}

theorem relabel (h : n.Realizes alphabet r) : n.relabel.Realizes alphabet r where
  alphabet_eq := n.relabel_alphabet.trans h.alphabet_eq
  valid := valid_relabel h.valid
  recognizes_iff w := recognizes_relabel.trans (h.recognizes_iff w)

theorem accepts_iff (h : n.Realizes alphabet r) (w : List α) : n.accepts w = r.accepts w := by
  rw [Bool.eq_iff_iff, accepts_iff_recognizes, h.recognizes_iff, r.accepts_iff]

/-- No edge leaves the state of the automaton that accepts nothing. -/
theorem empty (alphabet : OrdSet α) : (Nfa.empty alphabet).Realizes alphabet .empty where
  alphabet_eq := rfl
  valid := ⟨OrdSet.mem_singleton.2 rfl, fun _ ht => (OrdSet.not_mem_empty ht).elim,
    fun _ hq => (OrdSet.not_mem_empty hq).elim⟩
  recognizes_iff w := by
    rw [Regex.denotes_empty, iff_false]
    exact fun ⟨_, hq, _⟩ => OrdSet.not_mem_empty hq

theorem epsilon (alphabet : OrdSet α) : (Nfa.epsilon alphabet).Realizes alphabet .epsilon where
  alphabet_eq := rfl
  valid := ⟨OrdSet.mem_singleton.2 rfl, fun _ ht => (OrdSet.not_mem_empty ht).elim,
    fun _ hq => hq⟩
  recognizes_iff w := by
    rw [Regex.denotes_epsilon]
    refine ⟨fun ⟨_, _, hpath⟩ => ?_, fun h => ⟨(), OrdSet.mem_singleton.2 rfl, h ▸ .nil ()⟩⟩
    rcases hpath with _ | ⟨ht, _⟩ | ⟨ht, _⟩
    · rfl
    · exact (OrdSet.not_mem_empty ht).elim
    · exact (OrdSet.not_mem_empty ht).elim

theorem symbol {k : Nfa Bool α} {c : α} (hk : Nfa.symbol? alphabet c = some k) :
    k.Realizes alphabet (.symbol c) := by
  obtain ⟨hc, hk⟩ := Option.ite_none_right_eq_some.1 hk
  obtain rfl := Option.some.inj hk
  have hedge : ∀ {p q : Bool} {a : Option α}, ⟨p, q, a⟩ ∈ ({.reading false true c} :
      OrdSet (Transition Bool α)) ↔ p = false ∧ q = true ∧ a = some c := by
    intro p q a
    rw [OrdSet.mem_singleton, Transition.reading, Transition.mk.injEq]
  refine ⟨rfl, ⟨by simp, fun ⟨p, q, a⟩ ht => ?_, fun q hq => ?_⟩, fun w => ?_⟩
  · obtain ⟨rfl, rfl, rfl⟩ := hedge.1 ht
    simpa using hc
  · obtain rfl := OrdSet.mem_singleton.1 hq
    simp
  · rw [Regex.denotes_symbol]
    refine ⟨fun ⟨r, hr, hpath⟩ => ?_, fun h => ⟨true, OrdSet.mem_singleton.2 rfl, ?_⟩⟩
    · obtain rfl := OrdSet.mem_singleton.1 hr
      -- one edge is all there is
      rcases hpath with _ | ⟨ht, _⟩ | ⟨ht, hpath⟩
      · exact nomatch (hedge.1 ht).2.2
      · obtain ⟨_, rfl, he⟩ := hedge.1 ht
        obtain rfl := Option.some.inj he
        rcases hpath with _ | ⟨ht, _⟩ | ⟨ht, _⟩
        · rfl
        · exact nomatch (hedge.1 ht).1
        · exact nomatch (hedge.1 ht).1
    · rw [h]
      exact .reading (hedge.2 ⟨rfl, rfl, rfl⟩) (.nil true)

theorem concat {k : Nfa (ConcatState σ τ) α} (hl : n.Realizes alphabet l)
    (hr : m.Realizes alphabet r) (hk : n.concat? m = some k) :
    k.Realizes alphabet (.concat l r) where
  alphabet_eq := (alphabet_concat? hk).2.trans hl.alphabet_eq
  valid := valid_concat? hk hl.valid hr.valid
  recognizes_iff w := by
    simp only [recognizes_concat? hk, Regex.denotes_concat, hl.recognizes_iff, hr.recognizes_iff]

theorem union {k : Nfa (UnionState σ τ) α} (hl : n.Realizes alphabet l)
    (hr : m.Realizes alphabet r) (hk : n.union? m = some k) :
    k.Realizes alphabet (.union l r) where
  alphabet_eq := (alphabet_union? hk).2.trans hl.alphabet_eq
  valid := valid_union? hk hl.valid hr.valid
  recognizes_iff w := by
    rw [recognizes_union? hk, Regex.denotes_union, hl.recognizes_iff, hr.recognizes_iff]

theorem star (h : n.Realizes alphabet r) : n.star.Realizes alphabet (.star r) where
  alphabet_eq := h.alphabet_eq
  valid := valid_star h.valid
  recognizes_iff w := by simp only [recognizes_star, Regex.denotes_star, h.recognizes_iff]

end Nfa.Realizes

namespace Regex

/-! ## The recursion -/

theorem toNfa?_concat_eq_some {alphabet : OrdSet α} {l r : Regex α} {n : Nfa Nat α} :
    (concat l r).toNfa? alphabet = some n ↔ ∃ a b k, l.toNfa? alphabet = some a ∧
      r.toNfa? alphabet = some b ∧ a.concat? b = some k ∧ k.relabel = n := by
  simp only [toNfa?, Option.bind_eq_bind, Option.pure_def, Option.bind_eq_some_iff,
    Option.some.injEq, exists_and_left]

theorem toNfa?_union_eq_some {alphabet : OrdSet α} {l r : Regex α} {n : Nfa Nat α} :
    (union l r).toNfa? alphabet = some n ↔ ∃ a b k, l.toNfa? alphabet = some a ∧
      r.toNfa? alphabet = some b ∧ a.union? b = some k ∧ k.relabel = n := by
  simp only [toNfa?, Option.bind_eq_bind, Option.pure_def, Option.bind_eq_some_iff,
    Option.some.injEq, exists_and_left]

theorem toNfa?_star_eq_some {alphabet : OrdSet α} {r : Regex α} {n : Nfa Nat α} :
    (star r).toNfa? alphabet = some n ↔ ∃ a, r.toNfa? alphabet = some a ∧ a.star.relabel = n := by
  simp only [toNfa?, Option.bind_eq_bind, Option.pure_def, Option.bind_eq_some_iff,
    Option.some.injEq]

/-- The symbols of two operands are those of each. -/
theorem union_symbols_subset {alphabet : OrdSet α} {l r : Regex α} :
    l.symbols ∪ r.symbols ⊆ alphabet ↔ l.symbols ⊆ alphabet ∧ r.symbols ⊆ alphabet := by
  simp only [OrdSet.subset_def, OrdSet.mem_union, or_imp, forall_and]

/-- **Every expression over the alphabet has an automaton.** -/
theorem exists_toNfa? {alphabet : OrdSet α} {r : Regex α} (h : r.symbols ⊆ alphabet) :
    ∃ n, r.toNfa? alphabet = some n ∧ n.Realizes alphabet r := by
  induction r with
  | empty => exact ⟨_, rfl, (Nfa.Realizes.empty alphabet).relabel⟩
  | epsilon => exact ⟨_, rfl, (Nfa.Realizes.epsilon alphabet).relabel⟩
  | symbol c =>
    have hc : c ∈ alphabet := h c (OrdSet.mem_singleton.2 rfl)
    have hk : Nfa.symbol? alphabet c = some _ := if_pos hc
    exact ⟨_, congrArg (Option.map Nfa.relabel) hk, (Nfa.Realizes.symbol hk).relabel⟩
  | concat l r ihl ihr =>
    obtain ⟨hl, hr⟩ := union_symbols_subset.1 h
    obtain ⟨a, ha, hal⟩ := ihl hl
    obtain ⟨b, hb, hbr⟩ := ihr hr
    obtain ⟨k, hk⟩ := Nfa.exists_concat? (hal.alphabet_eq.trans hbr.alphabet_eq.symm)
    exact ⟨k.relabel, toNfa?_concat_eq_some.2 ⟨a, b, k, ha, hb, hk, rfl⟩,
      (hal.concat hbr hk).relabel⟩
  | union l r ihl ihr =>
    obtain ⟨hl, hr⟩ := union_symbols_subset.1 h
    obtain ⟨a, ha, hal⟩ := ihl hl
    obtain ⟨b, hb, hbr⟩ := ihr hr
    obtain ⟨k, hk⟩ := Nfa.exists_union? (hal.alphabet_eq.trans hbr.alphabet_eq.symm)
    exact ⟨k.relabel, toNfa?_union_eq_some.2 ⟨a, b, k, ha, hb, hk, rfl⟩,
      (hal.union hbr hk).relabel⟩
  | star r ih =>
    obtain ⟨a, ha, har⟩ := ih h
    exact ⟨a.star.relabel, toNfa?_star_eq_some.2 ⟨a, ha, rfl⟩, har.star.relabel⟩

/-- An expression with a foreign symbol has none. -/
theorem toNfa?_eq_none {alphabet : OrdSet α} {r : Regex α} (h : ¬r.symbols ⊆ alphabet) :
    r.toNfa? alphabet = none := by
  induction r with
  | empty | epsilon => exact absurd (fun _ hc => (OrdSet.not_mem_empty hc).elim) h
  | symbol c =>
    have hc : c ∉ alphabet := fun hc => h fun d hd => OrdSet.mem_singleton.1 hd ▸ hc
    rw [toNfa?, Nfa.symbol?, if_neg hc, Option.map_none]
  | concat l r ihl ihr | union l r ihl ihr =>
    rw [toNfa?]
    by_cases hl : l.symbols ⊆ alphabet
    · rw [ihr fun hr => h (union_symbols_subset.2 ⟨hl, hr⟩)]
      cases l.toNfa? alphabet <;> rfl
    · rw [ihl hl]
      rfl
  | star r ih =>
    rw [toNfa?, ih h]
    rfl

/-- Whatever the recursion builds accepts what the expression denotes. -/
theorem realizes_of_toNfa? {alphabet : OrdSet α} {r : Regex α} {n : Nfa Nat α}
    (hn : r.toNfa? alphabet = some n) : n.Realizes alphabet r := by
  have h : r.symbols ⊆ alphabet := by
    intro c hc
    refine Decidable.byContradiction fun hforeign => ?_
    rw [toNfa?_eq_none fun h => hforeign (h c hc)] at hn
    cases hn
  obtain ⟨m, hm, hr⟩ := exists_toNfa? h
  obtain rfl := Option.some.inj (hm.symm.trans hn)
  exact hr

end Regex

end FiniteAutomata
