/-!
# Regex/Glyph — what a character means in the text of an expression

Any opening bracket may be closed by any closing one.  Blanks are the space, the tab, the carriage
return and the line feed; no other white space is skipped.
-/

namespace FiniteAutomata.Regex

/-- The part a character plays. -/
inductive Glyph
  | blank
  | emptySet
  | emptyWord
  | symbol
  | opening
  | closing
  | star
  | bar
  | other
  deriving DecidableEq

/-- The characters that stand for themselves: ASCII letters and digits. -/
def isSymbol (c : Char) : Bool := c.isAlphanum

theorem ne_of_isSymbol {c d : Char} (hc : isSymbol c) (hd : isSymbol d = false) : c ≠ d := by
  rintro rfl
  rw [hd] at hc
  cases hc

/-- The characters that are skipped. -/
def blanks : List Char := [' ', '\t', '\r', '\n']

/-- The brackets that open a group. -/
def openings : List Char := ['(', '[', '\x7b']

/-- The brackets that close a group. -/
def closings : List Char := [')', ']', '\x7d']

/-- The part `c` plays. -/
def Glyph.ofChar (c : Char) : Glyph :=
  if isSymbol c then .symbol
  else if c ∈ blanks then .blank
  else if c = '∅' then .emptySet
  else if c = 'ε' then .emptyWord
  else if c ∈ openings then .opening
  else if c ∈ closings then .closing
  else if c = '*' then .star
  else if c = '|' then .bar
  else .other

namespace Glyph

/-- The characters that play a part. -/
def Plays (c : Char) : Glyph → Prop
  | symbol => isSymbol c
  | blank => c ∈ blanks
  | emptySet => c = '∅'
  | emptyWord => c = 'ε'
  | opening => c ∈ openings
  | closing => c ∈ closings
  | star => c = '*'
  | bar => c = '|'
  | other => ¬isSymbol c ∧ c ∉ blanks ∧ c ≠ '∅' ∧ c ≠ 'ε' ∧ c ∉ openings ∧ c ∉ closings ∧
      c ≠ '*' ∧ c ≠ '|'

theorem plays_ofChar (c : Char) : (ofChar c).Plays c := by
  unfold ofChar
  repeat (split; · assumption)
  exact ⟨‹_›, ‹_›, ‹_›, ‹_›, ‹_›, ‹_›, ‹_›, ‹_›⟩

/-- **No character plays two parts.** -/
theorem ofChar_eq_iff {c : Char} {g : Glyph} : ofChar c = g ↔ g.Plays c := by
  refine ⟨fun h => h ▸ plays_ofChar c, fun h => ?_⟩
  cases g with
  | symbol => exact if_pos h
  | blank =>
    obtain rfl | rfl | rfl | rfl : c = ' ' ∨ c = '\t' ∨ c = '\r' ∨ c = '\n' := by
      simpa only [Plays, blanks, List.mem_cons, List.not_mem_nil, or_false] using h
    all_goals rfl
  | emptySet => rw [show c = '∅' from h]; decide
  | emptyWord => rw [show c = 'ε' from h]; decide
  | opening =>
    obtain rfl | rfl | rfl : c = '(' ∨ c = '[' ∨ c = '\x7b' := by
      simpa only [Plays, openings, List.mem_cons, List.not_mem_nil, or_false] using h
    all_goals rfl
  | closing =>
    obtain rfl | rfl | rfl : c = ')' ∨ c = ']' ∨ c = '\x7d' := by
      simpa only [Plays, closings, List.mem_cons, List.not_mem_nil, or_false] using h
    all_goals rfl
  | star => rw [show c = '*' from h]; decide
  | bar => rw [show c = '|' from h]; decide
  | other =>
    obtain ⟨h₁, h₂, h₃, h₄, h₅, h₆, h₇, h₈⟩ := h
    simp only [ofChar, h₁, h₂, h₃, h₄, h₅, h₆, h₇, h₈, if_false]
    rfl

end Glyph

end FiniteAutomata.Regex
