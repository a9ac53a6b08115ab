import FiniteAutomata.Proofs.Regex.Printing
import Mathlib.Data.List.Infix

/-!
# Proofs/Regex/Nesting — how deep the brackets of a text are nested

The depth of a text is the largest number of brackets that are open at one place (`bracketDepth`).
It is at most `n` exactly if no part from the front opens more than `n` brackets that it does not
close (`Shallow`), and this is a property of the pieces of the text, as long as the first of them
closes its own brackets (`shallow_append`).  In its own text an expression is nested as deep as it
has to be (`shallow_charsAt_iff`), and in no other text for it less deep (`Derives.nestingAt_le`).
-/

namespace FiniteAutomata.Regex

/-- How deep the brackets of a text are nested: the most that are open at one place. -/
def bracketDepth (text : List Char) : Nat := (text.inits.map openBrackets).foldr max 0

/-- Opening brackets less closing ones. -/
def net (text : List Char) : Int := text.countP openings.contains - text.countP closings.contains

/-- Nowhere in the text are more than `n` brackets open beyond those that were open before it. -/
def Shallow (n : Int) (text : List Char) : Prop := ∀ p, p <+: text → net p ≤ n

variable {n : Int} {d : Nat} {k : Phrase} {t u : List Char} {o c : Char} {r : Regex Char}

theorem foldr_max_le_iff {n : Nat} {places : List Nat} :
    places.foldr max 0 ≤ n ↔ ∀ i ∈ places, i ≤ n := by
  induction places with
  | nil => simp
  | cons i places ih => rw [List.foldr_cons, Nat.max_le, ih, List.forall_mem_cons]

theorem bracketDepth_le_iff {n : Nat} : bracketDepth t ≤ n ↔ Shallow n t := by
  rw [bracketDepth, foldr_max_le_iff, List.forall_mem_map]
  refine forall_congr' fun p => imp_congr (List.mem_inits p t) ?_
  rw [openBrackets, net]
  omega

/-! ## Counting brackets -/

@[simp] theorem net_nil : net [] = 0 := rfl

@[simp] theorem net_append (t u : List Char) : net (t ++ u) = net t + net u := by
  simp only [net, List.countP_append]
  omega

/-- The part that a character plays decides whether it counts. -/
theorem net_cons (c : Char) (t : List Char) : net (c :: t) = net t +
    ((if Glyph.ofChar c = .opening then 1 else 0) - if Glyph.ofChar c = .closing then 1 else 0) := by
  simp only [net, List.countP_cons, contains_openings, contains_closings]
  split <;> split <;> omega

theorem net_cons_opening (ho : o ∈ openings) (t : List Char) : net (o :: t) = net t + 1 := by
  have hglyph : Glyph.ofChar o = .opening := Glyph.ofChar_eq_iff.2 ho
  rw [net_cons, hglyph]
  rfl

theorem net_closing (hc : c ∈ closings) : net [c] = -1 := by
  have hglyph : Glyph.ofChar c = .closing := Glyph.ofChar_eq_iff.2 hc
  rw [net_cons, hglyph]
  rfl

theorem net_bar_cons (t : List Char) : net ('|' :: t) = net t := (net_cons '|' t).trans (Int.add_zero _)

theorem net_symbol (hc : isSymbol c) : net [c] = 0 := by
  have hglyph : Glyph.ofChar c = .symbol := Glyph.ofChar_eq_iff.2 hc
  rw [net_cons, hglyph]
  rfl

theorem net_charsAt {least : Nat} (hr : ∀ c ∈ r.symbols, isSymbol c) : net (charsAt least r) = 0 := by
  rw [net, countP_charsAt hr]
  exact Int.sub_self _

/-- A phrase closes the brackets that it opens. -/
theorem Derives.net_eq (h : Derives k d t r) : net t = 0 := by
  induction h with
  | emptySet | emptyWord => rfl
  | symbol hc => exact net_symbol hc
  | bracketed _ ho _ hc ih =>
    rw [net_append, net_cons_opening ho, net_closing hc, ih]
    rfl
  | plain _ ih | factor _ ih | alternative _ ih => exact ih
  | starred _ ih =>
    rw [net_append, ih]
    rfl
  | product _ _ ihl ihr => rw [net_append, ihl, ihr, Int.zero_add]
  | choice _ _ ihl ihr => rw [net_append, net_bar_cons, ihl, ihr, Int.zero_add]

/-! ## The pieces of a text -/

/-- Nothing is open before the text. -/
theorem Shallow.nonneg (h : Shallow n t) : 0 ≤ n := h [] List.nil_prefix

theorem Shallow.of_append_left (h : Shallow n (t ++ u)) : Shallow n t :=
  fun p hp => h p (hp.trans (List.prefix_append t u))

/-- **What closes its own brackets** does not count for what comes after it. -/
theorem shallow_append (ht : net t = 0) : Shallow n (t ++ u) ↔ Shallow n t ∧ Shallow n u := by
  constructor
  · refine fun h => ⟨h.of_append_left, fun p hp => ?_⟩
    have hnet := h (t ++ p) ((List.prefix_append_right_inj t).2 hp)
    rwa [net_append, ht, Int.zero_add] at hnet
  · rintro ⟨htn, hun⟩ p hp
    rcases List.prefix_or_prefix_of_prefix hp (List.prefix_append t u) with hp' | ⟨q, rfl⟩
    · exact htn p hp'
    · rw [net_append, ht, Int.zero_add]
      exact hun q ((List.prefix_append_right_inj t).1 hp)

/-- A character that opens nothing needs nothing. -/
theorem shallow_singleton_iff (hc : net [c] ≤ 0) : Shallow n [c] ↔ 0 ≤ n := by
  refine ⟨Shallow.nonneg, fun hn p hp => ?_⟩
  rcases List.prefix_cons_iff.1 hp with rfl | ⟨q, rfl, hq⟩
  · exact hn
  · rw [List.prefix_nil.1 hq]
    exact Int.le_trans hc hn

/-- **Brackets around a text** take one more. -/
theorem shallow_brackets (ho : o ∈ openings) (hc : c ∈ closings) :
    Shallow n (o :: t ++ [c]) ↔ Shallow (n - 1) t := by
  constructor
  · intro h p hp
    have hprefix : o :: p <+: o :: t := List.cons_prefix_cons.2 ⟨rfl, hp⟩
    have hnet := h.of_append_left (o :: p) hprefix
    rw [net_cons_opening ho] at hnet
    omega
  · intro h p hp
    have hn := h.nonneg
    rcases List.prefix_concat_iff.1 hp with rfl | hp
    · have hnet := h t List.prefix_rfl
      rw [net_append, net_cons_opening ho, net_closing hc]
      omega
    · rcases List.prefix_cons_iff.1 hp with rfl | ⟨q, rfl, hq⟩
      · rw [net_nil]
        omega
      · have hnet := h q hq
        rw [net_cons_opening ho]
        omega

/-- Blanks are not brackets. -/
theorem net_significant (text : List Char) : net (significant text) = net text := by
  induction text with
  | nil => rfl
  | cons c text ih =>
    by_cases hc : c ∈ blanks
    · have hglyph : Glyph.ofChar c = .blank := Glyph.ofChar_eq_iff.2 hc
      rw [significant, List.filter_cons_of_neg (by simpa using hc), net_cons, hglyph]
      exact ih.trans (Int.add_zero _).symm
    · rw [significant, List.filter_cons_of_pos (by simpa using hc), net_cons, net_cons c text, ← ih]
      rfl

theorem Shallow.significant (h : Shallow n t) : Shallow n (significant t) := by
  intro p hp
  obtain ⟨q, hq, rfl⟩ := List.prefix_filter_iff.1 hp
  exact (net_significant q).trans_le (h q hq)

/-! ## Expressions -/

theorem shallow_bracketIf_iff {needed : Bool} {m : Nat} (h : ∀ n, Shallow n t ↔ m ≤ n) :
    Shallow n (bracketIf needed t) ↔ ((m + if needed then 1 else 0 : Nat) : Int) ≤ n := by
  cases needed with
  | false => exact h n
  | true =>
    have hbrackets := shallow_brackets (n := n) (t := t) (o := '(') (c := ')') (by decide) (by decide)
    rw [bracketIf, if_pos rfl, if_pos rfl, hbrackets, h]
    omega

/-- **In its own text** an expression is nested exactly as deep as it has to be. -/
theorem shallow_charsAt_iff {least : Nat} (hr : ∀ c ∈ r.symbols, isSymbol c) :
    Shallow n (charsAt least r) ↔ nestingAt least r ≤ n := by
  induction r generalizing least n with
  | empty | epsilon => exact shallow_singleton_iff (by decide)
  | symbol c =>
    have hc : isSymbol c := hr c (OrdSet.mem_singleton.2 rfl)
    exact shallow_singleton_iff (Int.le_of_eq (net_symbol hc))
  | concat l r ihl ihr =>
    obtain ⟨hl, hr⟩ := OrdSet.forall_mem_union.1 hr
    have hfactors : ∀ n, Shallow n (charsAt 1 l ++ charsAt 2 r) ↔
        (max (nestingAt 1 l) (nestingAt 2 r) : Nat) ≤ n := by
      intro n
      rw [shallow_append (net_charsAt hl), ihl hl, ihr hr]
      omega
    rw [charsAt, shallow_bracketIf_iff hfactors, nestingAt]
    simp only [decide_eq_true_eq]
  | union l r ihl ihr =>
    obtain ⟨hl, hr⟩ := OrdSet.forall_mem_union.1 hr
    have halternatives : ∀ n, Shallow n (charsAt 0 l ++ '|' :: charsAt 1 r) ↔
        (max (nestingAt 0 l) (nestingAt 1 r) : Nat) ≤ n := by
      intro n
      have hbar : Shallow n ('|' :: charsAt 1 r) ↔ Shallow n ['|'] ∧ Shallow n (charsAt 1 r) :=
        shallow_append (t := ['|']) rfl
      rw [shallow_append (net_charsAt hl), hbar, shallow_singleton_iff (by decide), ihl hl, ihr hr]
      omega
    rw [charsAt, shallow_bracketIf_iff halternatives, nestingAt]
    simp only [decide_eq_true_eq]
  | star r ih =>
    have hbody : net (charsAt 2 r) = 0 := net_charsAt fun c hc => hr c hc
    rw [charsAt, shallow_append hbody, shallow_singleton_iff (by decide), ih fun c hc => hr c hc,
      nestingAt]
    omega

/-- How strongly an expression binds without brackets around it. -/
def binding : Regex Char → Nat
  | union _ _ => 0
  | concat _ _ => 1
  | _ => 2

/-- A place that asks for more than an expression binds costs a pair of brackets. -/
theorem nestingAt_eq (least : Nat) (r : Regex Char) :
    nestingAt least r = nestingAt 0 r + if r.binding < min least 2 then 1 else 0 := by
  have hnever : ¬2 < min least 2 := by omega
  have hconcat : 1 < min least 2 ↔ 1 < least := by omega
  have hunion : 0 < min least 2 ↔ 0 < least := by omega
  cases r with
  | empty | epsilon | symbol _ | star _ => simp only [nestingAt, binding, hnever, if_false, Nat.add_zero]
  | concat _ _ => simp only [nestingAt, binding, hconcat, Nat.not_lt_zero, if_false, Nat.add_zero]
  | union _ _ => simp only [nestingAt, binding, hunion, Nat.lt_irrefl, if_false, Nat.add_zero]

/-- What suffices at a place suffices at one that asks for less. -/
theorem nestingAt_le_of_le {m m' : Nat} (hm : m ≤ m') (h : nestingAt m' r ≤ n) :
    nestingAt m r ≤ n := by
  rw [nestingAt_eq] at h ⊢
  split at h <;> split <;> omega

/-- **No text for an expression is nested less deep** than the expression has to be. -/
theorem Derives.nestingAt_le (h : Derives k d t r) (ht : Shallow n t) :
    nestingAt k.strength r ≤ n := by
  induction h generalizing n with
  | emptySet | emptyWord | symbol _ => exact ht.nonneg
  | @bracketed _ _ _ _ r _ ho _ hc ih =>
    have hinner : nestingAt 0 r ≤ n - 1 := ih ((shallow_brackets ho hc).1 ht)
    rw [nestingAt_eq]
    split <;> omega
  | plain _ ih => exact nestingAt_le_of_le (Nat.le_succ 2) (ih ht)
  | factor _ ih => exact nestingAt_le_of_le (Nat.le_succ 1) (ih ht)
  | alternative _ ih => exact nestingAt_le_of_le (Nat.le_succ 0) (ih ht)
  | starred _ ih => exact ih ht.of_append_left
  | product hl _ ihl ihr =>
    obtain ⟨hleft, hright⟩ := (shallow_append hl.net_eq).1 ht
    have hl : (nestingAt 1 _ : Int) ≤ n := ihl hleft
    have hr : (nestingAt 2 _ : Int) ≤ n := ihr hright
    rw [Phrase.strength, nestingAt, if_neg (Nat.lt_irrefl 1)]
    omega
  | choice hl _ ihl ihr =>
    obtain ⟨hleft, hright⟩ := (shallow_append hl.net_eq).1 ht
    obtain ⟨-, hright⟩ := (shallow_append (t := ['|']) rfl).1 hright
    have hl : (nestingAt 0 _ : Int) ≤ n := ihl hleft
    have hr : (nestingAt 1 _ : Int) ≤ n := ihr hright
    rw [Phrase.strength, nestingAt, if_neg (Nat.lt_irrefl 0)]
    omega

end FiniteAutomata.Regex
