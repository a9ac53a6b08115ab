import FiniteAutomata.Proofs.Regex.Reading

/-!
# Proofs/Regex/Depth — how many brackets are open

An opening bracket takes the parser one level down, as long as the bound of nesting permits, and a
closing one takes it up again; nothing else changes the depth.  So the depth after a text is the
difference of the numbers of its brackets (`depth_of_readAll`).
-/

namespace FiniteAutomata.Regex

theorem contains_openings {c : Char} : openings.contains c ↔ Glyph.ofChar c = .opening := by
  rw [List.contains_iff_mem, Glyph.ofChar_eq_iff, Glyph.Plays]

theorem contains_closings {c : Char} : closings.contains c ↔ Glyph.ofChar c = .closing := by
  rw [List.contains_iff_mem, Glyph.ofChar_eq_iff, Glyph.Plays]

namespace Reading

variable {s s' : Reading} {c : Char} {text more : List Char}

/-- **Only brackets change the depth**, each by one. -/
theorem Moves.depth_eq (h : s.Moves c s') : s'.depth + (if closings.contains c then 1 else 0) =
    s.depth + if openings.contains c then 1 else 0 := by
  simp only [contains_openings, contains_closings]
  -- the part the character plays decides both counts
  cases h with
  | blank hc =>
    have hglyph : Glyph.ofChar c = .blank := Glyph.ofChar_eq_iff.2 hc
    rw [hglyph]
    rfl
  | symbol hc =>
    have hglyph : Glyph.ofChar c = .symbol := Glyph.ofChar_eq_iff.2 hc
    rw [hglyph]
    rfl
  | opening hc =>
    have hglyph : Glyph.ofChar c = .opening := Glyph.ofChar_eq_iff.2 hc
    rw [hglyph]
    rfl
  | closing hc =>
    have hglyph : Glyph.ofChar c = .closing := Glyph.ofChar_eq_iff.2 hc
    rw [hglyph]
    rfl
  | _ => rfl

/-- No bracket is opened beyond the bound. -/
theorem Moves.depth_le (h : s.Moves c s') (hs : s.depth ≤ maxNesting) :
    s'.depth ≤ maxNesting := by
  cases h with
  | opening _ hdepth => exact hdepth
  | closing => exact Nat.le_of_succ_le hs
  | _ => exact hs

theorem depth_le_of_readAll (h : s.readAll text = .ok s') (hs : s.depth ≤ maxNesting) :
    s'.depth ≤ maxNesting := by
  induction text generalizing s with
  | nil =>
    obtain rfl := Except.ok.inj h
    exact hs
  | cons c text ih =>
    obtain ⟨s₁, hmove, hread⟩ := exists_moves_of_readAll_cons h
    exact ih hread (hmove.depth_le hs)

/-- **The depth counts the brackets that are not closed yet.** -/
theorem depth_of_readAll (h : s.readAll text = .ok s') :
    s'.depth + text.countP closings.contains = s.depth + text.countP openings.contains := by
  induction text generalizing s with
  | nil =>
    obtain rfl := Except.ok.inj h
    rfl
  | cons c text ih =>
    obtain ⟨s₁, hmove, hread⟩ := exists_moves_of_readAll_cons h
    have hdepth := hmove.depth_eq
    have hrest := ih hread
    rw [List.countP_cons, List.countP_cons]
    omega

end Reading

end FiniteAutomata.Regex
