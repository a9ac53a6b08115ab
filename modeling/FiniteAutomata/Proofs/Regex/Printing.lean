import FiniteAutomata.Proofs.Regex.Depth
import FiniteAutomata.Proofs.Regex.Recognition
import FiniteAutomata.Regex.Printer

/-!
# Proofs/Regex/Printing — which expressions are read back from their text

The text of an expression at a place that asks for some strength is a phrase of that strength, as
long as its symbols are symbols of the grammar and its brackets are not nested too deep
(`derives_charsAt`).  Conversely the parser makes no other symbols (`isSymbol_of_derives`), and
where it gets through the text of an expression it has been as deep as the expression is nested
(`add_nestingAt_le`).
-/

namespace FiniteAutomata.Regex

/-! ## The text of an expression is a phrase -/

/-- How strongly a phrase binds. -/
def Phrase.strength : Phrase → Nat
  | union => 0
  | concat => 1
  | star => 2
  | atom => 3

/-- The phrases that a place asks for. -/
def Phrase.ofStrength : Nat → Phrase
  | 0 => union
  | 1 => concat
  | _ => star

theorem Phrase.strength_ofStrength_le : ∀ least, (ofStrength least).strength ≤ min least 2
  | 0 | 1 => Nat.le_refl _
  | n + 2 => Nat.le_min.2 ⟨Nat.le_add_left 2 n, Nat.le_refl 2⟩

variable {d : Nat} {t : List Char} {r : Regex Char}

/-- A phrase stands for every phrase that binds weaker. -/
theorem Derives.weaken : ∀ {k k' : Phrase}, k'.strength ≤ k.strength → Derives k d t r →
    Derives k' d t r
  | .union, .union, _, h | .concat, .concat, _, h | .star, .star, _, h | .atom, .atom, _, h => h
  | .concat, .union, _, h => .alternative h
  | .star, .union, _, h => .alternative (.factor h)
  | .atom, .union, _, h => .alternative (.factor (.plain h))
  | .star, .concat, _, h => .factor h
  | .atom, .concat, _, h => .factor (.plain h)
  | .atom, .star, _, h => .plain h
  | .union, .concat, hk, _ | .union, .star, hk, _ | .union, .atom, hk, _ | .concat, .star, hk, _
  | .concat, .atom, hk, _ | .star, .atom, hk, _ => absurd hk (by decide)

/-- At a place that asks for no more than the phrase binds, nothing is added. -/
theorem Derives.at_place {k : Phrase} {least : Nat} (h : Derives k d t r)
    (hk : min least 2 ≤ k.strength) : Derives (.ofStrength least) d t r :=
  h.weaken (Nat.le_trans (Phrase.strength_ofStrength_le least) hk)

/-- A phrase that binds as strongly as a star fits every place. -/
theorem Derives.anywhere {k : Phrase} {least : Nat} (h : Derives k d t r) (hk : 2 ≤ k.strength) :
    Derives (.ofStrength least) d t r :=
  h.at_place (Nat.le_trans (Nat.min_le_right _ _) hk)

/-- **Brackets make a phrase fit its place**, one level further down. -/
theorem derives_bracketIf {k : Phrase} {n least : Nat}
    (hinner : ∀ {d}, d + n ≤ maxNesting → Derives k d t r)
    (h : d + (n + if k.strength < least then 1 else 0) ≤ maxNesting) :
    Derives (.ofStrength least) d (bracketIf (k.strength < least) t) r := by
  by_cases hk : k.strength < least
  · rw [if_pos hk] at h
    have hunion : Derives .union (d + 1) t r := (hinner (by omega)).weaken (Nat.zero_le _)
    have hgroup : Derives .atom d ('(' :: t ++ [')']) r :=
      .bracketed (by omega) (by decide) hunion (by decide)
    rw [bracketIf, decide_eq_true hk]
    exact hgroup.anywhere (by decide)
  · rw [if_neg hk] at h
    rw [bracketIf, decide_eq_false hk]
    exact (hinner h).at_place (by omega)

/-- **The text of an expression is a phrase for the expression.** -/
theorem derives_charsAt {least : Nat} (hr : ∀ c ∈ r.symbols, isSymbol c)
    (h : d + nestingAt least r ≤ maxNesting) :
    Derives (.ofStrength least) d (charsAt least r) r := by
  induction r generalizing least d with
  | empty => exact Derives.emptySet.anywhere (by decide)
  | epsilon => exact Derives.emptyWord.anywhere (by decide)
  | symbol c => exact (Derives.symbol (hr c (OrdSet.mem_singleton.2 rfl))).anywhere (by decide)
  | concat l r ihl ihr =>
    obtain ⟨hl, hr⟩ := OrdSet.forall_mem_union.1 hr
    refine derives_bracketIf (k := .concat) (fun {d} hd => ?_) h
    have hleft : Derives (.ofStrength 1) d (charsAt 1 l) l := ihl hl (by omega)
    have hright : Derives (.ofStrength 2) d (charsAt 2 r) r := ihr hr (by omega)
    exact .product hleft hright
  | union l r ihl ihr =>
    obtain ⟨hl, hr⟩ := OrdSet.forall_mem_union.1 hr
    refine derives_bracketIf (k := .union) (fun {d} hd => ?_) h
    have hleft : Derives (.ofStrength 0) d (charsAt 0 l) l := ihl hl (by omega)
    have hright : Derives (.ofStrength 1) d (charsAt 1 r) r := ihr hr (by omega)
    exact .choice hleft hright
  | star r ih =>
    have hbody : Derives .star d (charsAt 2 r) r := ih hr h
    exact hbody.starred.anywhere (by decide)

/-! ## What the parser makes of it -/

/-- The symbols of what is derived are symbols of the grammar. -/
theorem isSymbol_of_derives {k : Phrase} (h : Derives k d t r) : ∀ c ∈ r.symbols, isSymbol c := by
  induction h with
  | emptySet | emptyWord => exact fun c hc => (OrdSet.not_mem_empty hc).elim
  | symbol hsymbol =>
    intro c hc
    rwa [OrdSet.mem_singleton.1 hc]
  | bracketed _ _ _ _ ih | plain _ ih | starred _ ih | factor _ ih | alternative _ ih => exact ih
  | product _ _ ihl ihr | choice _ _ ihl ihr => exact OrdSet.forall_mem_union.2 ⟨ihl, ihr⟩

/-- The symbols of what the parser makes are symbols of the grammar. -/
theorem isSymbol_of_parse {text : String} (h : parse text = .ok r) : ∀ c ∈ r.symbols, isSymbol c :=
  isSymbol_of_derives (derives_of_parse h)

/-! ## How deep the parser goes -/

/-- A pair of brackets opens as many as it closes. -/
theorem countP_bracketIf {needed : Bool}
    (h : t.countP openings.contains = t.countP closings.contains) :
    (bracketIf needed t).countP openings.contains =
      (bracketIf needed t).countP closings.contains := by
  cases needed with
  | false => exact h
  | true =>
    have hopen : (bracketIf true t).countP openings.contains =
        t.countP openings.contains + 1 := by
      simp [bracketIf, openings]
    have hclose : (bracketIf true t).countP closings.contains =
        t.countP closings.contains + 1 := by
      simp [bracketIf, closings]
    rw [hopen, hclose, h]

/-- The text of an expression closes the brackets that it opens. -/
theorem countP_charsAt {least : Nat} (hr : ∀ c ∈ r.symbols, isSymbol c) :
    (charsAt least r).countP openings.contains = (charsAt least r).countP closings.contains := by
  induction r generalizing least with
  | empty | epsilon => rfl
  | symbol c =>
    have hglyph : Glyph.ofChar c = .symbol :=
      Glyph.ofChar_eq_iff.2 (hr c (OrdSet.mem_singleton.2 rfl))
    simp only [charsAt, List.countP_cons, contains_openings, contains_closings, hglyph]
    rfl
  | concat l r ihl ihr =>
    obtain ⟨hl, hr⟩ := OrdSet.forall_mem_union.1 hr
    refine countP_bracketIf ?_
    rw [List.countP_append, List.countP_append, ihl hl, ihr hr]
  | union l r ihl ihr =>
    obtain ⟨hl, hr⟩ := OrdSet.forall_mem_union.1 hr
    refine countP_bracketIf ?_
    rw [List.countP_append, List.countP_append, List.countP_cons, List.countP_cons, ihl hl, ihr hr]
    rfl
  | star r ih =>
    rw [charsAt, List.countP_append, List.countP_append, ih hr]
    rfl

namespace Reading

/-- Behind its bracket, if it has one, a text is read one level further down. -/
theorem exists_readAll_of_bracketIf {s s' : Reading} {needed : Bool} (hs : s.depth ≤ maxNesting)
    (h : s.readAll (bracketIf needed t) = .ok s') : ∃ s₁ s₂ : Reading, s₁.readAll t = .ok s₂ ∧
      s₁.depth = s.depth + (if needed then 1 else 0) ∧ s₁.depth ≤ maxNesting := by
  cases needed with
  | false => exact ⟨s, s', h, rfl, hs⟩
  | true =>
    obtain ⟨s₁, hmove, hread⟩ := exists_moves_of_readAll_cons h
    obtain ⟨s₂, hread, -⟩ := exists_readAll_of_append hread
    exact ⟨s₁, s₂, hread, hmove.depth_eq, hmove.depth_le hs⟩

/-- The text of an expression leads back to the depth it started from. -/
theorem depth_of_readAll_charsAt {s s' : Reading} {least : Nat} (hr : ∀ c ∈ r.symbols, isSymbol c)
    (h : s.readAll (charsAt least r) = .ok s') : s'.depth = s.depth := by
  have hdepth := depth_of_readAll h
  rw [countP_charsAt hr] at hdepth
  exact Nat.add_right_cancel hdepth

/-- **Where the text of an expression is read, its brackets have been opened.** -/
theorem add_nestingAt_le {s s' : Reading} {least : Nat} (hr : ∀ c ∈ r.symbols, isSymbol c)
    (hs : s.depth ≤ maxNesting) (h : s.readAll (charsAt least r) = .ok s') :
    s.depth + nestingAt least r ≤ maxNesting := by
  induction r generalizing s s' least with
  | empty | epsilon | symbol c => exact hs
  | concat l r ihl ihr =>
    obtain ⟨hl, hr⟩ := OrdSet.forall_mem_union.1 hr
    obtain ⟨s₁, s₂, hread, hdepth, hs₁⟩ := exists_readAll_of_bracketIf hs h
    obtain ⟨s₃, hleft, hright⟩ := exists_readAll_of_append hread
    have hs₃ : s₃.depth = s₁.depth := depth_of_readAll_charsAt hl hleft
    have hlle : s₁.depth + nestingAt 1 l ≤ maxNesting := ihl hl hs₁ hleft
    have hrle : s₃.depth + nestingAt 2 r ≤ maxNesting := ihr hr (hs₃ ▸ hs₁) hright
    rw [nestingAt]
    simp only [decide_eq_true_eq] at hdepth
    omega
  | union l r ihl ihr =>
    obtain ⟨hl, hr⟩ := OrdSet.forall_mem_union.1 hr
    obtain ⟨s₁, s₂, hread, hdepth, hs₁⟩ := exists_readAll_of_bracketIf hs h
    obtain ⟨s₃, hleft, hread⟩ := exists_readAll_of_append hread
    obtain ⟨s₄, hbar, hright⟩ := exists_moves_of_readAll_cons hread
    have hs₃ : s₃.depth = s₁.depth := depth_of_readAll_charsAt hl hleft
    have hs₄ : s₄.depth = s₃.depth := hbar.depth_eq
    have hlle : s₁.depth + nestingAt 0 l ≤ maxNesting := ihl hl hs₁ hleft
    have hrle : s₄.depth + nestingAt 1 r ≤ maxNesting := ihr hr (by omega) hright
    rw [nestingAt]
    simp only [decide_eq_true_eq] at hdepth
    omega
  | star r ih =>
    obtain ⟨s₁, hread, -⟩ := exists_readAll_of_append h
    exact ih hr hs hread

end Reading

/-- **An expression is read back from its text** exactly if the grammar has all of its symbols and
its brackets are not nested too deep; otherwise its text is no expression or another one. -/
theorem parse_print_iff (r : Regex Char) :
    parse (print r) = .ok r ↔ (∀ c ∈ r.symbols, isSymbol c) ∧ nesting r ≤ maxNesting := by
  refine ⟨?_, ?_⟩
  · intro h
    have hr := isSymbol_of_parse h
    obtain ⟨s, hread, -⟩ := Reading.readFrom_eq_ok_iff.1 h
    rw [print, String.toList_ofList] at hread
    have hnesting := Reading.add_nestingAt_le hr (Nat.zero_le _) hread
    exact ⟨hr, Nat.le_trans (Nat.le_add_left _ _) hnesting⟩
  · intro h
    obtain ⟨hr, hnesting⟩ := h
    have hderives : Derives (.ofStrength 0) 0 (charsAt 0 r) r :=
      derives_charsAt hr (by rwa [Nat.zero_add])
    obtain ⟨before, a, hread, hclose⟩ :=
      Reading.reads_of_derives hderives (s := .start) rfl rfl
    rw [parse, print, String.toList_ofList]
    exact Reading.readFrom_eq_ok_iff.2 ⟨_, hread, Reading.finish_eq_ok_iff.2 ⟨before, a, rfl, hclose⟩⟩

/-- A symbol that prints as a star is read as one. -/
example : parse (print (.concat (.symbol 'a') (.symbol '*'))) = .ok (.star (.symbol 'a')) :=
  rfl

end FiniteAutomata.Regex
