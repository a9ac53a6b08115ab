import FiniteAutomata.Regex.Grammar
import FiniteAutomata.Regex.Parser

/-!
# Proofs/Regex/Reading — what one character does to the parser

`Moves s c s'` lists, by the part the character plays, every way on from one state to another, with
the conditions under which it is open; it is what `step` computes (`step_eq_ok_iff`).  A text is an
expression if reading all of it leads to a state that may end (`readFrom_eq_ok_iff`), and blanks on
the way do not matter (`readAll_significant`).
-/

namespace FiniteAutomata.Regex

namespace Reading

/-! ## One character -/

/-- The character `c` moves the parser from one state to another. -/
inductive Moves : Reading → Char → Reading → Prop
  | blank {s : Reading} {c : Char} : c ∈ blanks → Moves s c s
  | emptySet {s : Reading} : Moves s '∅' (s.push .empty)
  | emptyWord {s : Reading} : Moves s 'ε' (s.push .epsilon)
  | symbol {s : Reading} {c : Char} : isSymbol c → Moves s c (s.push (.symbol c))
  | opening {s : Reading} {c : Char} : c ∈ openings → s.depth < maxNesting →
      Moves s c ⟨.start, s.level :: s.outer⟩
  | star {before : Option (Regex Char)} {a : Alternative} {outer : List Level} :
      Moves ⟨⟨before, some a⟩, outer⟩ '*' ⟨⟨before, some a.star⟩, outer⟩
  | bar {before : Option (Regex Char)} {a : Alternative} {outer : List Level} :
      Moves ⟨⟨before, some a⟩, outer⟩ '|' ⟨⟨some (Level.close ⟨before, some a⟩ a), none⟩, outer⟩
  | closing {before : Option (Regex Char)} {a : Alternative} {level : Level} {outer : List Level}
      {c : Char} : c ∈ closings → Moves ⟨⟨before, some a⟩, level :: outer⟩ c
        ⟨level.push (Level.close ⟨before, some a⟩ a), outer⟩

/-- What a step does is one of the moves. -/
theorem moves_of_step {s s' : Reading} {c : Char} (h : s.step c = .ok s') : s.Moves c s' := by
  obtain ⟨⟨before, current⟩, outer⟩ := s
  rw [step] at h
  generalize hc : Glyph.ofChar c = g at h
  have hplays : g.Plays c := Glyph.ofChar_eq_iff.1 hc
  cases g with
  | blank =>
    obtain rfl := Except.ok.inj h
    exact .blank hplays
  | emptySet =>
    obtain rfl : c = '∅' := hplays
    obtain rfl := Except.ok.inj h
    exact .emptySet
  | emptyWord =>
    obtain rfl : c = 'ε' := hplays
    obtain rfl := Except.ok.inj h
    exact .emptyWord
  | symbol =>
    obtain rfl := Except.ok.inj h
    exact .symbol hplays
  | opening =>
    by_cases hdepth : depth ⟨⟨before, current⟩, outer⟩ < maxNesting
    · obtain rfl := Except.ok.inj ((if_pos hdepth).symm.trans h)
      exact .opening hplays hdepth
    · exact nomatch (if_neg hdepth).symm.trans h
  | star =>
    obtain rfl : c = '*' := hplays
    obtain _ | a := current
    · exact nomatch h
    · obtain rfl := Except.ok.inj h
      exact .star
  | bar =>
    obtain rfl : c = '|' := hplays
    obtain _ | a := current
    · exact nomatch h
    · obtain rfl := Except.ok.inj h
      exact .bar
  | closing =>
    -- there must be a bracket to close and something in it
    obtain _ | a := current
    · exact nomatch h
    obtain _ | ⟨level, outer⟩ := outer
    · exact nomatch h
    obtain rfl := Except.ok.inj h
    exact .closing hplays
  | other => exact nomatch h

/-- **The moves are what a step does.** -/
theorem step_eq_ok_iff {s s' : Reading} {c : Char} : s.step c = .ok s' ↔ s.Moves c s' := by
  refine ⟨moves_of_step, fun h => ?_⟩
  cases h with
  | blank hc =>
    have hglyph : Glyph.ofChar c = .blank := Glyph.ofChar_eq_iff.2 hc
    rw [step, hglyph]
  | emptySet => rfl
  | emptyWord => rfl
  | symbol hc =>
    have hglyph : Glyph.ofChar c = .symbol := Glyph.ofChar_eq_iff.2 hc
    rw [step, hglyph]
  | opening hc hdepth =>
    have hglyph : Glyph.ofChar c = .opening := Glyph.ofChar_eq_iff.2 hc
    rw [step, hglyph]
    exact if_pos hdepth
  | star => rfl
  | bar => rfl
  | closing hc =>
    have hglyph : Glyph.ofChar c = .closing := Glyph.ofChar_eq_iff.2 hc
    rw [step, hglyph]

/-! ## Many characters -/

/-- The state after some more characters. -/
def readAll (s : Reading) (text : List Char) : Except Expected Reading := text.foldlM step s

@[simp] theorem readAll_nil (s : Reading) : s.readAll [] = .ok s := rfl

theorem readAll_cons {s s' : Reading} {c : Char} (h : s.Moves c s') (text : List Char) :
    s.readAll (c :: text) = s'.readAll text := by
  rw [readAll, List.foldlM_cons, step_eq_ok_iff.2 h]
  rfl

theorem readAll_append {s s' : Reading} {text : List Char} (h : s.readAll text = .ok s')
    (more : List Char) : s.readAll (text ++ more) = s'.readAll more := by
  rw [readAll, List.foldlM_append, ← readAll, h]
  rfl

/-- A text that was read was read in two parts, wherever it is cut. -/
theorem exists_readAll_of_append {s s' : Reading} {text more : List Char}
    (h : s.readAll (text ++ more) = .ok s') :
    ∃ s₁, s.readAll text = .ok s₁ ∧ s₁.readAll more = .ok s' := by
  rw [readAll, List.foldlM_append, ← readAll] at h
  cases hs₁ : s.readAll text with
  | error e => rw [hs₁] at h; exact nomatch h
  | ok s₁ => rw [hs₁] at h; exact ⟨s₁, rfl, h⟩

/-- A character that was read moved the parser. -/
theorem exists_moves_of_readAll_cons {s s' : Reading} {c : Char} {text : List Char}
    (h : s.readAll (c :: text) = .ok s') : ∃ s₁, s.Moves c s₁ ∧ s₁.readAll text = .ok s' := by
  rw [readAll, List.foldlM_cons] at h
  cases hc : s.step c with
  | error e => rw [hc] at h; exact nomatch h
  | ok s₁ => rw [hc] at h; exact ⟨s₁, step_eq_ok_iff.1 hc, h⟩

/-- Another error does not make a success. -/
theorem mapError_eq_ok {ε ε' β : Type} {x : Except ε β} {f : ε → ε'} {b : β} :
    x.mapError f = .ok b ↔ x = .ok b := by
  cases x with
  | error e => exact iff_of_false (fun h => nomatch h) (fun h => nomatch h)
  | ok b' => exact ⟨fun h => Except.ok.inj h ▸ rfl, fun h => Except.ok.inj h ▸ rfl⟩

/-- **Reading succeeds exactly if it leads to a state that may end.** -/
theorem readFrom_eq_ok_iff {s : Reading} {offset : Nat} {text : List Char} {r : Regex Char} :
    s.readFrom offset text = .ok r ↔ ∃ s', s.readAll text = .ok s' ∧ s'.finish = .ok r := by
  induction text generalizing s offset with
  | nil =>
    rw [readFrom, mapError_eq_ok]
    refine ⟨?_, ?_⟩
    · intro h
      exact ⟨s, readAll_nil s, h⟩
    · rintro ⟨s', hread, h⟩
      obtain rfl := Except.ok.inj hread
      exact h
  | cons c text ih =>
    rw [readFrom, readAll, List.foldlM_cons]
    cases hc : s.step c with
    | error e => exact iff_of_false nofun nofun
    | ok s₁ => exact ih

/-- **Blanks are passed over.** -/
theorem readAll_significant (s : Reading) (text : List Char) :
    s.readAll (significant text) = s.readAll text := by
  induction text generalizing s with
  | nil => rfl
  | cons c text ih =>
    by_cases hc : c ∈ blanks
    · rw [readAll_cons (.blank hc), ← ih, significant, List.filter_cons_of_neg (by simpa using hc)]
      rfl
    · rw [significant, List.filter_cons_of_pos (by simpa using hc), readAll, List.foldlM_cons,
        readAll, List.foldlM_cons]
      exact congrArg (s.step c >>= ·) (funext ih)

/-- The states that may end are complete outside all brackets. -/
theorem finish_eq_ok_iff {s : Reading} {r : Regex Char} :
    s.finish = .ok r ↔ ∃ before a, s = ⟨⟨before, some a⟩, []⟩ ∧
      Level.close ⟨before, some a⟩ a = r := by
  refine ⟨?_, ?_⟩
  · intro h
    obtain ⟨⟨before, current⟩, outer⟩ := s
    cases current with
    | none => exact nomatch h
    | some a =>
      cases outer with
      | nil => exact ⟨before, a, rfl, Except.ok.inj h⟩
      | cons level outer => exact nomatch h
  · intro h
    obtain ⟨before, a, rfl, rfl⟩ := h
    rfl

end Reading

end FiniteAutomata.Regex
