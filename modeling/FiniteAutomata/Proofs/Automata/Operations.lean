import FiniteAutomata.Proofs.Dfa.SideBySide
import FiniteAutomata.Proofs.Dot.Drawing
import FiniteAutomata.Proofs.Regex.Compilation
import Mathlib.Data.Set.Insert

/-!
# Proofs/Automata/Operations — working with automata over one alphabet

Operations on automata come one after the other, in any order: each takes its operands from what
is there and adds its result (`Performs`).  A single operation on valid automata over the alphabet
has a result, which is again valid and over the alphabet (`Operation.exists_result`); so nothing
that is ever made makes a later operation, or the drawing of an automaton, fail.
-/

namespace FiniteAutomata

/-- An automaton of either kind, with states of any type. -/
inductive Automaton (α : Type) [Ordered α] : Type 1
  | nfa {σ : Type} [Ordered σ] (n : Nfa σ α)
  | dfa {σ : Type} [Ordered σ] (d : Dfa σ α)

variable {α : Type} [Ordered α]

namespace Automaton

/-- Validity of the kind it is of. -/
def Valid : Automaton α → Prop
  | nfa n => n.Valid
  | dfa d => d.Valid

/-- The symbols it reads. -/
def alphabet : Automaton α → OrdSet α
  | nfa n => n.alphabet
  | dfa d => d.alphabet

/-- However its states and symbols are written, the automaton has a description. -/
def Drawable : Automaton α → Prop
  | @nfa _ _ σ _ n => ∀ [Named σ] [Shown α], n.dot?.isSome
  | @dfa _ _ σ _ d => ∀ [Named σ] [Shown α], d.dot?.isSome

theorem Valid.drawable {a : Automaton α} (h : a.Valid) : a.Drawable := by
  cases a with
  | nfa n => exact Nfa.Valid.isSome_dot? h
  | dfa d => exact Dfa.Valid.isSome_dot? h

/-- A valid automaton over the alphabet. -/
structure Sound (alphabet : OrdSet α) (a : Automaton α) : Prop where
  valid : a.Valid
  alphabet_eq : a.alphabet = alphabet

end Automaton

/-! ## One operation -/

/-- An operation that makes an automaton, with its operands. -/
inductive Operation (α : Type) [Ordered α] : Type 1
  | nfaEmpty
  | nfaEpsilon
  | nfaSymbol (c : α)
  | dfaEmpty
  | dfaFull
  | mapStates {σ τ : Type} [Ordered σ] [Ordered τ] (f : σ → τ) (n : Nfa σ α)
  | relabelNfa {σ : Type} [Ordered σ] (n : Nfa σ α)
  | union {σ τ : Type} [Ordered σ] [Ordered τ] (n : Nfa σ α) (m : Nfa τ α)
  | concat {σ τ : Type} [Ordered σ] [Ordered τ] (n : Nfa σ α) (m : Nfa τ α)
  | star {σ : Type} [Ordered σ] (n : Nfa σ α)
  | toDfa {σ : Type} [Ordered σ] (n : Nfa σ α)
  | toNfa {σ : Type} [Ordered σ] (d : Dfa σ α)
  | complement {σ : Type} [Ordered σ] (d : Dfa σ α)
  | product {σ τ : Type} [Ordered σ] [Ordered τ] (combine : Bool → Bool → Bool) (a : Dfa σ α)
      (b : Dfa τ α)
  | relabelDfa {σ : Type} [Ordered σ] (d : Dfa σ α)
  | construct (r : Regex α)
  | compile (r : Regex α)

namespace Operation

/-- The automata an operation is done to. -/
def operands : Operation α → List (Automaton α)
  | nfaEmpty | nfaEpsilon | nfaSymbol _ | dfaEmpty | dfaFull | construct _ | compile _ => []
  | mapStates _ n | relabelNfa n | star n | toDfa n => [.nfa n]
  | union n m | concat n m => [.nfa n, .nfa m]
  | toNfa d | complement d | relabelDfa d => [.dfa d]
  | product _ a b => [.dfa a, .dfa b]

/-- The symbols that the alphabet must have for an operation. -/
def symbols : Operation α → OrdSet α
  | nfaSymbol c => {c}
  | construct r | compile r => r.symbols
  | _ => ∅

/-- The automaton that is made, if there is one; the alphabet is for what has no operands. -/
def result? (alphabet : OrdSet α) : Operation α → Option (Automaton α)
  | nfaEmpty => some (.nfa (Nfa.empty alphabet))
  | nfaEpsilon => some (.nfa (Nfa.epsilon alphabet))
  | nfaSymbol c => (Nfa.symbol? alphabet c).map .nfa
  | dfaEmpty => some (.dfa (Dfa.empty alphabet))
  | dfaFull => some (.dfa (Dfa.full alphabet))
  | mapStates f n => some (.nfa (n.mapStates f))
  | relabelNfa n => n.relabel?.map .nfa
  | union n m => (n.union? m).map .nfa
  | concat n m => (n.concat? m).map .nfa
  | star n => some (.nfa n.star)
  | toDfa n => some (.dfa n.toDfa)
  | toNfa d => some (.nfa d.toNfa)
  | complement d => some (.dfa d.complement)
  | product combine a b => (Dfa.product? combine a b).map .dfa
  | relabelDfa d => d.relabel?.map .dfa
  | construct r => (r.toNfa alphabet).outcome.toOption.map .nfa
  | compile r => (r.toDfa alphabet).outcome.toOption.map .dfa

/-- **An operation on valid automata over the alphabet has such a result.** -/
theorem exists_result {alphabet : OrdSet α} {op : Operation α}
    (hoperands : ∀ a ∈ op.operands, a.Sound alphabet) (hsymbols : op.symbols ⊆ alphabet) :
    ∃ a, op.result? alphabet = some a ∧ a.Sound alphabet := by
  cases op with
  | nfaEmpty =>
    have h := Nfa.Realizes.empty alphabet
    exact ⟨_, rfl, h.valid, h.alphabet_eq⟩
  | nfaEpsilon =>
    have h := Nfa.Realizes.epsilon alphabet
    exact ⟨_, rfl, h.valid, h.alphabet_eq⟩
  | nfaSymbol c =>
    have hc : c ∈ alphabet := hsymbols c (OrdSet.mem_singleton.2 rfl)
    have hk : Nfa.symbol? alphabet c = some _ := if_pos hc
    have h := Nfa.Realizes.symbol hk
    exact ⟨_, congrArg (Option.map Automaton.nfa) hk, h.valid, h.alphabet_eq⟩
  | dfaEmpty => exact ⟨_, rfl, Dfa.valid_empty alphabet, rfl⟩
  | dfaFull => exact ⟨_, rfl, Dfa.valid_full alphabet, rfl⟩
  | mapStates f n =>
    have hn := List.forall_mem_singleton.1 hoperands
    exact ⟨_, rfl, Nfa.valid_mapStates f hn.valid, hn.alphabet_eq⟩
  | relabelNfa n =>
    have hn := List.forall_mem_singleton.1 hoperands
    exact ⟨_, congrArg (Option.map Automaton.nfa) n.relabel?_eq_some, Nfa.valid_relabel hn.valid,
      n.relabel_alphabet.trans hn.alphabet_eq⟩
  | union n m =>
    rw [operands, List.forall_mem_cons, List.forall_mem_singleton] at hoperands
    obtain ⟨hn, hm⟩ := hoperands
    obtain ⟨k, hk⟩ := Nfa.exists_union? (hn.alphabet_eq.trans hm.alphabet_eq.symm)
    exact ⟨_, congrArg (Option.map Automaton.nfa) hk, Nfa.valid_union? hk hn.valid hm.valid,
      (Nfa.alphabet_union? hk).2.trans hn.alphabet_eq⟩
  | concat n m =>
    rw [operands, List.forall_mem_cons, List.forall_mem_singleton] at hoperands
    obtain ⟨hn, hm⟩ := hoperands
    obtain ⟨k, hk⟩ := Nfa.exists_concat? (hn.alphabet_eq.trans hm.alphabet_eq.symm)
    exact ⟨_, congrArg (Option.map Automaton.nfa) hk, Nfa.valid_concat? hk hn.valid hm.valid,
      (Nfa.alphabet_concat? hk).2.trans hn.alphabet_eq⟩
  | star n =>
    have hn := List.forall_mem_singleton.1 hoperands
    exact ⟨_, rfl, Nfa.valid_star hn.valid, hn.alphabet_eq⟩
  | toDfa n =>
    have hn := List.forall_mem_singleton.1 hoperands
    exact ⟨_, rfl, Nfa.valid_toDfa hn.valid, hn.alphabet_eq⟩
  | toNfa d =>
    have hd := List.forall_mem_singleton.1 hoperands
    exact ⟨_, rfl, Dfa.valid_toNfa hd.valid, hd.alphabet_eq⟩
  | complement d =>
    have hd := List.forall_mem_singleton.1 hoperands
    exact ⟨_, rfl, Dfa.valid_complement hd.valid, hd.alphabet_eq⟩
  | product combine a b =>
    rw [operands, List.forall_mem_cons, List.forall_mem_singleton] at hoperands
    obtain ⟨ha, hb⟩ := hoperands
    obtain ⟨p, hp⟩ := Dfa.exists_product? combine (ha.alphabet_eq.trans hb.alphabet_eq.symm)
    exact ⟨_, congrArg (Option.map Automaton.dfa) hp, Dfa.valid_product? hp ha.valid hb.valid,
      (Dfa.alphabet_product? hp).2.trans ha.alphabet_eq⟩
  | relabelDfa d =>
    have hd := List.forall_mem_singleton.1 hoperands
    obtain ⟨e, he⟩ := Dfa.exists_relabel? hd.valid
    exact ⟨_, congrArg (Option.map Automaton.dfa) he, Dfa.valid_relabel? he hd.valid,
      (Dfa.alphabet_relabel? he).trans hd.alphabet_eq⟩
  | construct r =>
    obtain ⟨n, hn, h⟩ := Regex.outcome_toNfa hsymbols
    refine ⟨.nfa n, ?_, h.valid, h.alphabet_eq⟩
    rw [result?, hn]
    rfl
  | compile r =>
    obtain ⟨d, hd, h⟩ := Regex.outcome_toDfa hsymbols
    refine ⟨.dfa d, ?_, h.valid, h.alphabet_eq⟩
    rw [result?, hd]
    rfl

end Operation

/-! ## One operation after the other -/

/-- A sequence of operations leads from one collection of automata to another: each operation takes
its operands from what is there and adds its result. -/
inductive Performs (alphabet : OrdSet α) :
    Set (Automaton α) → List (Operation α) → Set (Automaton α) → Prop
  | done {S : Set (Automaton α)} : Performs alphabet S [] S
  | next {S T : Set (Automaton α)} {op : Operation α} {ops : List (Operation α)}
      {a : Automaton α} (operands_mem : ∀ b ∈ op.operands, b ∈ S)
      (symbols_subset : op.symbols ⊆ alphabet) (result_eq : op.result? alphabet = some a)
      (rest : Performs alphabet (insert a S) ops T) : Performs alphabet S (op :: ops) T

variable {alphabet : OrdSet α} {S T : Set (Automaton α)} {ops : List (Operation α)}

/-- What is made from valid automata over the alphabet is valid and over the alphabet. -/
theorem Performs.sound (h : Performs alphabet S ops T) (hS : ∀ a ∈ S, a.Sound alphabet) :
    ∀ a ∈ T, a.Sound alphabet := by
  induction h with
  | done => exact hS
  | @next S T op ops a operands_mem symbols_subset result_eq _ ih =>
    refine ih ?_
    obtain ⟨a', ha', hsound⟩ :=
      Operation.exists_result (fun b hb => hS b (operands_mem b hb)) symbols_subset
    obtain rfl := Option.some.inj (result_eq.symm.trans ha')
    exact Set.forall_mem_insert.2 ⟨hsound, hS⟩

/-- **Whatever is done to valid automata over one alphabet, all that is made is valid**, over the
same alphabet and can be drawn, and no further operation on it fails. -/
theorem operations_keep_valid (hS : ∀ a ∈ S, a.Valid ∧ a.alphabet = alphabet)
    (h : Performs alphabet S ops T) :
    (∀ a ∈ T, a.Valid ∧ a.alphabet = alphabet ∧ a.Drawable) ∧
      ∀ op : Operation α, (∀ a ∈ op.operands, a ∈ T) → op.symbols ⊆ alphabet →
        (op.result? alphabet).isSome := by
  have hT : ∀ a ∈ T, a.Sound alphabet := h.sound fun a ha => ⟨(hS a ha).1, (hS a ha).2⟩
  refine ⟨?_, ?_⟩
  · intro a ha
    exact ⟨(hT a ha).valid, (hT a ha).alphabet_eq, (hT a ha).valid.drawable⟩
  · intro op hoperands hsymbols
    obtain ⟨a, ha, -⟩ := Operation.exists_result (fun a ha => hT a (hoperands a ha)) hsymbols
    rw [ha]
    rfl

/-- Reads an `a` on the way from one state to the other. -/
def crossing : Nfa Bool Char where
  states := .ofList [false, true]
  alphabet := .ofList ['a', 'b']
  start := false
  transitions := {.reading false true 'a'}
  accepting := {true}

/-- Both states are given one name; what comes out is made deterministic and complemented. -/
theorem complement_of_merged_crossing :
    let merged := crossing.mapStates fun _ => ()
    let given : Set (Automaton Char) := {.nfa crossing}
    let made : Set (Automaton Char) :=
      {.dfa merged.toDfa.complement, .dfa merged.toDfa, .nfa merged, .nfa crossing}
    (∀ a ∈ given, a.Valid ∧ a.alphabet = .ofList ['a', 'b']) ∧
      Performs (.ofList ['a', 'b']) given
        [.mapStates (fun _ => ()) crossing, .toDfa merged, .complement merged.toDfa] made ∧
      ∀ a ∈ made, a.Valid ∧ a.alphabet = .ofList ['a', 'b'] ∧ a.Drawable := by
  intro merged given made
  have hgiven : ∀ a ∈ given, a.Valid ∧ a.alphabet = .ofList ['a', 'b'] := by
    rintro a rfl
    have hvalid : crossing.Valid := by decide
    exact ⟨hvalid, rfl⟩
  have hperforms : Performs (.ofList ['a', 'b']) given
      [.mapStates (fun _ => ()) crossing, .toDfa merged, .complement merged.toDfa] made := by
    have hnone : (∅ : OrdSet Char) ⊆ .ofList ['a', 'b'] := fun _ hc =>
      (OrdSet.not_mem_empty hc).elim
    -- every operand is what was made last
    refine .next (List.forall_mem_singleton.2 rfl) hnone rfl ?_
    refine .next (List.forall_mem_singleton.2 (Set.mem_insert ..)) hnone rfl ?_
    exact .next (List.forall_mem_singleton.2 (Set.mem_insert ..)) hnone rfl .done
  exact ⟨hgiven, hperforms, (operations_keep_valid hgiven hperforms).1⟩

end FiniteAutomata
