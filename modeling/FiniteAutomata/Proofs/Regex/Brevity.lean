import FiniteAutomata.Proofs.Regex.Nesting

/-!
# Proofs/Regex/Brevity — no text for an expression is shorter than its own

An expression can be written in many ways: with brackets of any kind around any phrase, once or more
often.  Its own text has a pair only where a phrase binds weaker than its place asks for, and there
every text has one.  So a text is longer, or is the text of its expression itself but for the kinds
of the brackets (`spares_charsAt`, by induction on the derivation of the text).
-/

namespace FiniteAutomata.Regex

variable {d : Nat} {k : Phrase} {t t' u u' : List Char} {o c : Char} {r : Regex Char}

/-- A round bracket in place of a bracket of any kind. -/
def roundBracket (c : Char) : Char :=
  match Glyph.ofChar c with
  | .opening => '('
  | .closing => ')'
  | _ => c

theorem roundBracket_opening (ho : o ∈ openings) : roundBracket o = '(' := by
  have hglyph : Glyph.ofChar o = .opening := Glyph.ofChar_eq_iff.2 ho
  rw [roundBracket, hglyph]

theorem roundBracket_closing (hc : c ∈ closings) : roundBracket c = ')' := by
  have hglyph : Glyph.ofChar c = .closing := Glyph.ofChar_eq_iff.2 hc
  rw [roundBracket, hglyph]

theorem roundBracket_symbol (hc : isSymbol c) : roundBracket c = c := by
  have hglyph : Glyph.ofChar c = .symbol := Glyph.ofChar_eq_iff.2 hc
  rw [roundBracket, hglyph]

/-! ## Shorter texts -/

/-- `u` is shorter than `t`, or is `t` with round brackets. -/
def Spares (u t : List Char) : Prop := u.length < t.length ∨ t.map roundBracket = u

namespace Spares

theorem length_le (h : Spares u t) : u.length ≤ t.length := by
  rcases h with hlt | rfl
  · exact Nat.le_of_lt hlt
  · exact Nat.le_of_eq (List.length_map _)

/-- A text that is no longer is the same but for its brackets. -/
theorem map_eq (h : Spares u t) (hlength : u.length = t.length) : t.map roundBracket = u :=
  h.resolve_left (Nat.not_lt_of_le (Nat.le_of_eq hlength.symm))

/-- One piece that is shorter is enough. -/
theorem append (h : Spares u t) (h' : Spares u' t') : Spares (u ++ u') (t ++ t') := by
  have hle := h.length_le
  have hle' := h'.length_le
  rcases h with hlt | rfl
  · left
    rw [List.length_append, List.length_append]
    omega
  rcases h' with hlt | rfl
  · left
    rw [List.length_append, List.length_append]
    omega
  · exact .inr List.map_append

/-- **Brackets that are not needed can be spared**, and those that are needed can be round. -/
theorem bracketIf (h : Spares u t) (ho : o ∈ openings) (hc : c ∈ closings) (needed : Bool) :
    Spares (bracketIf needed u) (o :: t ++ [c]) := by
  cases needed with
  | false =>
    refine .inl ?_
    rw [List.length_append, List.length_cons]
    exact Nat.lt_succ_of_lt (Nat.lt_succ_of_le h.length_le)
  | true =>
    refine append (u := ['(']) (t := [o]) (.inr ?_) (h.append (.inr ?_))
    · rw [List.map_singleton, roundBracket_opening ho]
    · rw [List.map_singleton, roundBracket_closing hc]

end Spares

/-! ## The text of an expression -/

/-- A place that asks for more than an expression binds puts brackets around its text. -/
theorem charsAt_eq (least : Nat) (r : Regex Char) :
    charsAt least r = bracketIf (r.binding < min least 2) (charsAt 0 r) := by
  have hnever : ¬2 < min least 2 := by omega
  have hconcat : 1 < min least 2 ↔ 1 < least := by omega
  have hunion : 0 < min least 2 ↔ 0 < least := by omega
  cases r with
  | empty | epsilon | symbol _ | star _ => simp only [charsAt, binding, hnever, decide_false]; rfl
  | concat _ _ => simp only [charsAt, binding, hconcat, Nat.not_lt_zero, decide_false]; rfl
  | union _ _ => simp only [charsAt, binding, hunion, Nat.lt_irrefl, decide_false]; rfl

/-- A place that asks for less costs no more. -/
theorem Spares.charsAt_of_le {m m' : Nat} (hm : m ≤ m') (h : Spares (charsAt m' r) t) :
    Spares (charsAt m r) t := by
  by_cases hneeded : r.binding < min m 2 ↔ r.binding < min m' 2
  · rwa [charsAt_eq, decide_eq_decide.2 hneeded, ← charsAt_eq]
  · have hm₁ : ¬r.binding < min m 2 := by omega
    have hm₂ : r.binding < min m' 2 := by omega
    have hle := h.length_le
    rw [charsAt_eq, decide_eq_true hm₂, Regex.bracketIf, if_pos rfl, List.length_append,
      List.length_cons] at hle
    rw [charsAt_eq, decide_eq_false hm₁]
    exact .inl (Nat.lt_of_lt_of_le (Nat.lt_succ_of_lt (Nat.lt_succ_self _)) hle)

/-- **Every text for an expression is longer than its own**, or is its own but for the kinds of its
brackets. -/
theorem spares_charsAt (h : Derives k d t r) : Spares (charsAt k.strength r) t := by
  induction h with
  | emptySet | emptyWord => exact .inr rfl
  | symbol hc =>
    refine .inr ?_
    rw [List.map_singleton, roundBracket_symbol hc]
    rfl
  | bracketed _ ho _ hc ih =>
    rw [charsAt_eq]
    exact ih.bracketIf ho hc _
  | plain _ ih => exact ih.charsAt_of_le (Nat.le_succ 2)
  | starred _ ih => exact ih.append (.inr rfl)
  | factor _ ih => exact ih.charsAt_of_le (Nat.le_succ 1)
  | product _ _ ihl ihr => exact ihl.append ihr
  | alternative _ ih => exact ih.charsAt_of_le (Nat.le_succ 0)
  | choice _ _ ihl ihr => exact ihl.append (Spares.append (u := ['|']) (t := ['|']) (.inr rfl) ihr)

/-! ## Texts that are read -/

/-- A text that is read is nested no deeper than the bound. -/
theorem shallow_of_parse {text : String} (h : parse text = .ok r) :
    Shallow maxNesting text.toList := by
  obtain ⟨s, hread, -⟩ := Reading.readFrom_eq_ok_iff.1 h
  rintro p ⟨rest, hp⟩
  rw [← hp] at hread
  obtain ⟨s₁, hs₁, -⟩ := Reading.exists_readAll_of_append hread
  have hdepth := Reading.depth_of_readAll hs₁
  have hle := Reading.depth_le_of_readAll hs₁ (Nat.zero_le _)
  have hstart : Reading.start.depth = 0 := rfl
  rw [net]
  omega

/-- **The text of an expression is the shortest.**  If a text is read as an expression, the text of
the expression has at most as many characters as that text without its blanks, its brackets are
nested at most as deep, and so it is read as the same expression.  If the text has no more
characters either, it is the text of the expression itself, but for the kinds of its brackets. -/
theorem print_shortest {text : String} (h : parse text = .ok r) :
    (print r).length ≤ (significant text.toList).length ∧
      bracketDepth (print r).toList ≤ bracketDepth text.toList ∧ parse (print r) = .ok r ∧
      ((print r).length = (significant text.toList).length →
        (significant text.toList).map roundBracket = (print r).toList) := by
  have hderives : Derives .union 0 (significant text.toList) r := derives_of_parse h
  have hsymbols : ∀ c ∈ r.symbols, isSymbol c := isSymbol_of_parse h
  have hspares : Spares (charsAt 0 r) (significant text.toList) := spares_charsAt hderives
  have hnesting : ∀ {n}, Shallow n text.toList → nestingAt 0 r ≤ n :=
    fun hn => hderives.nestingAt_le hn.significant
  have hbound : 0 + nestingAt 0 r ≤ maxNesting := by
    rw [Nat.zero_add]
    exact Int.ofNat_le.1 (hnesting (shallow_of_parse h))
  have hown : Derives (.ofStrength 0) 0 (charsAt 0 r) r := derives_charsAt hsymbols hbound
  rw [print, String.length_ofList, String.toList_ofList, bracketDepth_le_iff,
    shallow_charsAt_iff hsymbols]
  exact ⟨hspares.length_le, hnesting (bracketDepth_le_iff.1 (Nat.le_refl _)),
    parse_ofList_of_derives hown, hspares.map_eq⟩

/-- The union under the star needs brackets, of whatever kind; those around a symbol or a second
pair around the union can be spared. -/
theorem print_of_bracketed_union :
    (parse "[a | b)*" = .ok (.star (.union (.symbol 'a') (.symbol 'b'))) ∧
      (significant "[a | b)*".toList).map roundBracket = "(a|b)*".toList) ∧
    parse "[((a)|b)]*" = .ok (.star (.union (.symbol 'a') (.symbol 'b'))) ∧
      "(a|b)*".length ≤ (significant "[((a)|b)]*".toList).length ∧
      bracketDepth "(a|b)*".toList ≤ bracketDepth "[((a)|b)]*".toList ∧
      parse "(a|b)*" = .ok (.star (.union (.symbol 'a') (.symbol 'b'))) := by
  have hprint : print (.star (.union (.symbol 'a') (.symbol 'b'))) = "(a|b)*" := rfl
  have hmixed : parse "[a | b)*" = .ok (.star (.union (.symbol 'a') (.symbol 'b'))) := rfl
  have hdoubled : parse "[((a)|b)]*" = .ok (.star (.union (.symbol 'a') (.symbol 'b'))) := rfl
  obtain ⟨-, -, -, hsame⟩ := hprint ▸ print_shortest hmixed
  obtain ⟨hlength, hdepth, hread, -⟩ := hprint ▸ print_shortest hdoubled
  exact ⟨⟨hmixed, hsame rfl⟩, hdoubled, hlength, hdepth, hread⟩

end FiniteAutomata.Regex
