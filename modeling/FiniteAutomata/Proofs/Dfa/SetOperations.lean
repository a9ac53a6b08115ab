import FiniteAutomata.Proofs.Dfa.Equality
import FiniteAutomata.Proofs.Order.Counting
import Mathlib.Data.Set.Basic

/-!
# Proofs/Dfa/SetOperations — complement and products as operations on languages

Over its alphabet the complement follows the run of its operand (`run_complement`) as a product
follows those of its two operands; the dead states of the operands are ordinary states there, and
the dead state of the result is out of reach.  Words with a foreign symbol are rejected by
operands and results alike.  So the complement is one of words over the alphabet only, whereas a
product that rejects what both operands reject combines languages as sets of words of any symbols
(`computes_product?`).
-/

namespace FiniteAutomata.Dfa

variable {σ τ α : Type} [Ordered σ] [Ordered τ] [Ordered α]

/-- The words that the automaton accepts. -/
def language (d : Dfa σ α) : Set (List α) := {w | d.accepts w}

theorem mem_language {d : Dfa σ α} {w : List α} : w ∈ d.language ↔ d.accepts w := Iff.rfl

instance (d : Dfa σ α) : DecidablePred (· ∈ d.language) := fun w =>
  inferInstanceAs (Decidable (d.accepts w))

/-- What an operation makes of two automata: there is a result exactly if they have one alphabet, and
it is valid and accepts the words of `L`. -/
structure Computes {ρ : Type} [Ordered ρ] (a : Dfa σ α) (b : Dfa τ α) (result : Option (Dfa ρ α))
    (L : Set (List α)) : Prop where
  eq_none_iff : result = none ↔ a.alphabet ≠ b.alphabet
  valid : ∀ p, result = some p → p.Valid
  language_eq : ∀ p, result = some p → p.language = L

/-- Over one alphabet there is a result. -/
theorem Computes.exists_eq_some {ρ : Type} [Ordered ρ] {a : Dfa σ α} {b : Dfa τ α}
    {result : Option (Dfa ρ α)} {L : Set (List α)} (h : Computes a b result L)
    (halphabet : a.alphabet = b.alphabet) : ∃ p, result = some p ∧ p.language = L := by
  have hsome : result ≠ none := fun hnone => h.eq_none_iff.1 hnone halphabet
  obtain ⟨p, hp⟩ := Option.ne_none_iff_exists'.1 hsome
  exact ⟨p, hp, h.language_eq p hp⟩

/-- The dead state is one more. -/
theorem size_withDead (d : Dfa σ α) : d.withDead.size = d.states.size + 1 := by
  have hdead : none ∉ d.states.map some := by simp
  rw [withDead, OrdSet.size_insert hdead, OrdSet.size_map fun _ _ => Option.some.inj]

/-! ## The complement -/

section Complement

variable {d : Dfa σ α} (hd : d.Valid)

include hd

/-- **After a word over the alphabet** the complement is where its operand is, dead or not. -/
theorem run_complement {w : List α} (hw : Over d.alphabet w) :
    d.complement.run w = some (d.run w) :=
  d.tabulates_complement.run_eq rfl hd.run_mem_withDead (fun w c => (d.run_concat w c).symm) hw

/-- Over the alphabet the complement accepts what its operand rejects. -/
theorem accepts_complement {w : List α} (hw : Over d.alphabet w) :
    d.complement.accepts w = !d.accepts w := by
  rw [Bool.eq_iff_iff, accepts_iff_mem (run_complement hd hw), mem_complement_accepting,
    and_iff_right (hd.run_mem_withDead w), accepts]

/-- **The complement reaches what its operand reaches**, under the names of the states. -/
theorem reachable_complement : d.complement.reachable = d.reachable.map some :=
  reachable_eq_map rfl fun _ => run_complement hd

/-- **The complement flips the words over the alphabet**, and those only: it is valid, accepts
such a word exactly if its operand rejects it, and rejects every other word, as its operand does.
What it reaches are the states its operand reaches, the dead one included, and so never its own
dead state. -/
theorem complement_flips_words :
    d.complement.Valid ∧
      (∀ w, (∀ c ∈ w, c ∈ d.alphabet) → (d.complement.accepts w ↔ ¬d.accepts w)) ∧
      (∀ w, (∃ c ∈ w, c ∉ d.alphabet) → ¬d.complement.accepts w ∧ ¬d.accepts w) ∧
      d.complement.reachable = d.reachable.map some ∧ none ∉ d.complement.reachable := by
  have hvalid : d.complement.Valid := valid_complement hd
  refine ⟨hvalid, ?_, ?_, reachable_complement hd, ?_⟩
  · intro w hw
    simp [accepts_complement hd hw]
  · rintro w ⟨c, hcw, hc⟩
    have hforeign : ¬Over d.alphabet w := fun hw => hc (hw c hcw)
    exact ⟨Bool.eq_false_iff.1 (hvalid.accepts_eq_false hforeign),
      Bool.eq_false_iff.1 (hd.accepts_eq_false hforeign)⟩
  · rw [reachable_complement hd, OrdSet.mem_map]
    exact fun ⟨_, _, h⟩ => nomatch h

end Complement

/-- Where no entry is left, the complement accepts: the start of the automaton has no row. -/
theorem complement_of_stranded : stranded.Valid ∧
    stranded.complement.accepts ['a'] ∧ ¬stranded.complement.accepts ['a', 'b'] ∧
    stranded.complement.reachable = (OrdSet.ofList [none, some 0]).map some := by
  have hvalid : stranded.Valid := by decide
  obtain ⟨-, hflip, hforeign, hreachable, -⟩ := complement_flips_words hvalid
  have hover : ∀ c ∈ ['a'], c ∈ stranded.alphabet := by simp [stranded]
  have hdead : ¬stranded.accepts ['a'] := by decide
  have hb : ∃ c ∈ ['a', 'b'], c ∉ stranded.alphabet := by simp [stranded]
  have hends : stranded.reachable = .ofList [none, some 0] := by decide +kernel
  exact ⟨hvalid, (hflip ['a'] hover).2 hdead, (hforeign ['a', 'b'] hb).1, hends ▸ hreachable⟩

/-! ## Products -/

section Product

variable {combine : Bool → Bool → Bool} {a : Dfa σ α} {b : Dfa τ α} {p : Dfa (ProductState σ τ) α}

/-- There is a pair for every state or dead state of the one and of the other. -/
theorem size_states_product? (h : product? combine a b = some p) :
    p.states.size = (a.states.size + 1) * (b.states.size + 1) := by
  rw [states_product? h, OrdSet.size_product, size_withDead, size_withDead]

variable (ha : a.Valid) (hb : b.Valid)

include ha hb

/-- **The product is never dead** after a word over the alphabet. -/
theorem none_notMem_reachable_product? (h : product? combine a b = some p) :
    none ∉ p.reachable := by
  refine none_notMem_reachable fun w hw => ?_
  rw [(alphabet_product? h).2] at hw
  rw [run_product? h ha hb hw]
  rfl

/-- **A product that rejects what both operands reject** accepts where `combine` says so, also words
with foreign symbols. -/
theorem accepts_product?_of_rejecting (h : product? combine a b = some p)
    (hdead : combine false false = false) (w : List α) :
    p.accepts w = combine (a.accepts w) (b.accepts w) := by
  obtain ⟨halphabet, hp⟩ := alphabet_product? h
  by_cases hw : Over a.alphabet w
  · exact accepts_product? h ha hb hw
  · rw [(valid_product? h ha hb).accepts_eq_false (hp ▸ hw), ha.accepts_eq_false hw,
      hb.accepts_eq_false (halphabet ▸ hw), hdead]

/-- **Such a product computes the language that `combine` tells**, word by word. -/
theorem computes_product? (hdead : combine false false = false) {L : Set (List α)}
    (hL : ∀ w, w ∈ L ↔ combine (a.accepts w) (b.accepts w)) :
    Computes a b (product? combine a b) L where
  eq_none_iff := product?_eq_none
  valid _ h := valid_product? h ha hb
  language_eq p h := by
    refine Set.ext fun w => ?_
    rw [mem_language, accepts_product?_of_rejecting ha hb h hdead, hL]

theorem computes_union? : Computes a b (union? a b) (a.language ∪ b.language) :=
  computes_product? ha hb rfl fun w => by simp [mem_language]

theorem computes_intersection? : Computes a b (intersection? a b) (a.language ∩ b.language) :=
  computes_product? ha hb rfl fun w => by simp [mem_language]

theorem computes_difference? : Computes a b (difference? a b) (a.language \ b.language) :=
  computes_product? ha hb rfl fun w => by simp [mem_language]

theorem computes_symmetricDifference? : Computes a b (symmetricDifference? a b)
    (a.language \ b.language ∪ b.language \ a.language) :=
  computes_product? ha hb rfl fun w => by
    rw [Set.mem_union, Set.mem_sdiff, Set.mem_sdiff, mem_language, mem_language]
    cases a.accepts w <;> cases b.accepts w <;> simp

/-- **A product combines languages.**  Valid automata have a product exactly if they have one
alphabet.  It is valid, has a state for every pair of states or dead states, accepts a word over
the alphabet where `combine` says so, rejects every other word, and never reaches its own dead
state.  Exactly over one alphabet there are a union, an intersection, a difference and a symmetric
difference; they are valid, and those of the languages, whatever the symbols. -/
theorem product_combines_languages (combine : Bool → Bool → Bool) :
    (product? combine a b = none ↔ a.alphabet ≠ b.alphabet) ∧
      (∀ p, product? combine a b = some p →
        p.Valid ∧ p.states.size = (a.states.size + 1) * (b.states.size + 1) ∧
          (∀ w, (∀ c ∈ w, c ∈ a.alphabet) → p.accepts w = combine (a.accepts w) (b.accepts w)) ∧
          (∀ w, (∃ c ∈ w, c ∉ a.alphabet) → ¬p.accepts w) ∧ none ∉ p.reachable) ∧
      Computes a b (union? a b) (a.language ∪ b.language) ∧
      Computes a b (intersection? a b) (a.language ∩ b.language) ∧
      Computes a b (difference? a b) (a.language \ b.language) ∧
      Computes a b (symmetricDifference? a b)
        (a.language \ b.language ∪ b.language \ a.language) := by
  refine ⟨product?_eq_none, ?_, computes_union? ha hb, computes_intersection? ha hb,
    computes_difference? ha hb, computes_symmetricDifference? ha hb⟩
  intro p h
  have hvalid : p.Valid := valid_product? h ha hb
  refine ⟨hvalid, size_states_product? h, ?_, ?_, none_notMem_reachable_product? ha hb h⟩
  · intro w hw
    exact accepts_product? h ha hb hw
  · rintro w ⟨c, hcw, hc⟩
    rw [← (alphabet_product? h).2] at hc
    exact Bool.eq_false_iff.1 (hvalid.accepts_eq_false fun hw => hc (hw c hcw))

end Product

/-- Accepts the words that begin with `a`. -/
def headed : Dfa Nat Char where
  states := .ofList [0, 1]
  alphabet := .ofList ['a', 'b']
  start := some 0
  rows := .ofList [(0, .ofList [('a', 1)]), (1, .ofList [('a', 1), ('b', 1)])]
  accepting := {1}

/-- Accepts the words of `a` alone. -/
def uniform : Dfa Nat Char where
  states := {0}
  alphabet := .ofList ['a', 'b']
  start := some 0
  rows := .ofList [(0, .ofList [('a', 0)])]
  accepting := {0}

/-- The empty word is in the one language, `ab` in the other, `a` in both and `b` in neither, where
both automata are dead.  Beside an automaton without a start, one whose start has no row: the product
that accepts where both reject accepts words over the alphabet only.  Over two alphabets nothing is
combined. -/
theorem operations_on_headed_and_uniform :
    headed.Valid ∧ uniform.Valid ∧ stranded.Valid ∧ (empty (.ofList ['a'])).Valid ∧
    (∃ p, union? headed uniform = some p ∧
      [] ∈ p.language ∧ ['a'] ∈ p.language ∧ ['a', 'b'] ∈ p.language ∧ ['b'] ∉ p.language) ∧
    (∃ p, intersection? headed uniform = some p ∧
      [] ∉ p.language ∧ ['a'] ∈ p.language ∧ ['a', 'b'] ∉ p.language ∧ ['b'] ∉ p.language) ∧
    (∃ p, difference? headed uniform = some p ∧
      [] ∉ p.language ∧ ['a'] ∉ p.language ∧ ['a', 'b'] ∈ p.language ∧ ['b'] ∉ p.language) ∧
    (∃ p, symmetricDifference? headed uniform = some p ∧
      [] ∈ p.language ∧ ['a'] ∉ p.language ∧ ['a', 'b'] ∈ p.language ∧ ['b'] ∉ p.language) ∧
    (∃ p, product? (fun x y => !x && !y) stranded (empty (.ofList ['a'])) = some p ∧
      p.states.size = 3 ∧ p.accepts ['a', 'a'] ∧ ¬p.accepts ['a', 'b'] ∧ none ∉ p.reachable) ∧
    union? headed stranded = none ∧ intersection? headed stranded = none ∧
      difference? headed stranded = none ∧ symmetricDifference? headed stranded = none := by
  have hheaded : headed.Valid := by decide
  have huniform : uniform.Valid := by decide
  have hstranded : stranded.Valid := by decide
  have hempty : (empty (.ofList ['a'])).Valid := valid_empty _
  refine ⟨hheaded, huniform, hstranded, hempty, ?_⟩
  obtain ⟨-, -, hunion, hintersection, hdifference, hsymmetric⟩ :=
    product_combines_languages hheaded huniform or
  obtain ⟨-, -, hunion', hintersection', hdifference', hsymmetric'⟩ :=
    product_combines_languages hheaded hstranded or
  obtain ⟨hnone, hproduct, -⟩ := product_combines_languages hstranded hempty fun x y => !x && !y
  have halphabets : headed.alphabet ≠ stranded.alphabet := by decide
  refine ⟨?_, ?_, ?_, ?_, ?_, hunion'.eq_none_iff.2 halphabets,
    hintersection'.eq_none_iff.2 halphabets, hdifference'.eq_none_iff.2 halphabets,
    hsymmetric'.eq_none_iff.2 halphabets⟩
  · obtain ⟨p, hp, hlanguage⟩ := hunion.exists_eq_some rfl
    refine ⟨p, hp, ?_⟩
    rw [hlanguage]
    decide
  · obtain ⟨p, hp, hlanguage⟩ := hintersection.exists_eq_some rfl
    refine ⟨p, hp, ?_⟩
    rw [hlanguage]
    decide
  · obtain ⟨p, hp, hlanguage⟩ := hdifference.exists_eq_some rfl
    refine ⟨p, hp, ?_⟩
    rw [hlanguage]
    decide
  · obtain ⟨p, hp, hlanguage⟩ := hsymmetric.exists_eq_some rfl
    refine ⟨p, hp, ?_⟩
    rw [hlanguage]
    decide
  · have hsome : product? (fun x y => !x && !y) stranded (empty (.ofList ['a'])) ≠ none :=
      fun h => hnone.1 h rfl
    obtain ⟨p, hp⟩ := Option.ne_none_iff_exists'.1 hsome
    obtain ⟨-, hsize, haccepts, hforeign, hdead⟩ := hproduct p hp
    have hover : ∀ c ∈ ['a', 'a'], c ∈ stranded.alphabet := by simp [stranded]
    have hb : ∃ c ∈ ['a', 'b'], c ∉ stranded.alphabet := by simp [stranded]
    refine ⟨p, hp, hsize, ?_, hforeign ['a', 'b'] hb, hdead⟩
    rw [haccepts ['a', 'a'] hover]
    decide

end FiniteAutomata.Dfa
