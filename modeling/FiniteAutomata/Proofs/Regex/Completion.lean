import FiniteAutomata.Proofs.Regex.Reading
import Mathlib.Data.List.Infix
import Mathlib.Order.Bounds.Defs

/-!
# Proofs/Regex/Completion — how far a text can be completed to an expression

From every state of the parser some text leads to a state that may end: an operand where one is
needed, then a closing bracket for every open one (`Reading.exists_completion`).  So what can be
completed is what can be read (`completable_iff`), and a text that is no expression is read up to
the place of the error and no further (`Reading.stops_of_readFrom`): this place ends the longest
part of the text that can be completed.
-/

namespace FiniteAutomata.Regex

/-- Some expression has a text that starts with `t`. -/
def Completable (t : String) : Prop := ∃ more r, parse (t ++ more) = .ok r

namespace Reading

/-! ## Every state can be completed -/

/-- Closing every open bracket leads to a state that may end. -/
theorem exists_readAll_closings (before : Option (Regex Char)) (a : Alternative)
    (outer : List Level) : ∃ before' a', readAll ⟨⟨before, some a⟩, outer⟩
      (List.replicate outer.length ')') = .ok ⟨⟨before', some a'⟩, []⟩ := by
  induction outer generalizing before a with
  | nil => exact ⟨before, a, rfl⟩
  | cons level outer ih =>
    obtain ⟨before', a', hread⟩ := ih level.before
      ⟨level.current.map Alternative.value, Level.close ⟨before, some a⟩ a⟩
    have hclosing : (')' : Char) ∈ closings := by decide
    exact ⟨before', a', (readAll_cons (.closing hclosing) _).trans hread⟩

/-- **From every state some text leads to a state that may end.** -/
theorem exists_completion (s : Reading) :
    ∃ more s' r, s.readAll more = .ok s' ∧ s'.finish = .ok r := by
  obtain ⟨⟨before, current⟩, outer⟩ := s
  cases current with
  | some a =>
    obtain ⟨before', a', hread⟩ := exists_readAll_closings before a outer
    exact ⟨_, _, _, hread, rfl⟩
  | none =>
    -- an operand comes first
    obtain ⟨before', a', hread⟩ := exists_readAll_closings before ⟨none, .symbol 'a'⟩ outer
    have hsymbol : isSymbol 'a' = true := by decide
    exact ⟨_, _, _, (readAll_cons (.symbol hsymbol) _).trans hread, rfl⟩

/-! ## Where reading stops -/

/-- The parser cannot go on in state `s` with what is left, for the reason the error gives. -/
def Stops (s : Reading) : List Char → ParseError → Prop
  | [], e => e.found = none ∧ s.finish = .error e.expected
  | c :: _, e => e.found = some c ∧ s.step c = .error e.expected

/-- **A text that is no expression is read up to the place of the error.** -/
theorem stops_of_readFrom {s : Reading} {offset : Nat} {text : List Char} {e : ParseError}
    (h : s.readFrom offset text = .error e) : ∃ before after s', text = before ++ after ∧
      s.readAll before = .ok s' ∧ e.offset = offset + (String.ofList before).utf8ByteSize ∧
      s'.Stops after e := by
  induction text generalizing s offset with
  | nil =>
    rw [readFrom] at h
    cases hfinish : s.finish with
    | error expected =>
      rw [hfinish] at h
      obtain rfl := Except.error.inj h
      exact ⟨[], [], s, rfl, rfl, rfl, rfl, hfinish⟩
    | ok r =>
      rw [hfinish] at h
      cases h
  | cons c text ih =>
    rw [readFrom] at h
    cases hstep : s.step c with
    | error expected =>
      rw [hstep] at h
      obtain rfl := Except.error.inj h
      exact ⟨[], c :: text, s, rfl, rfl, rfl, rfl, hstep⟩
    | ok s₁ =>
      rw [hstep] at h
      obtain ⟨before, after, s', rfl, hread, hoffset, hstops⟩ := ih h
      refine ⟨c :: before, after, s', rfl, ?_, ?_, hstops⟩
      · rw [readAll_cons (step_eq_ok_iff.1 hstep), hread]
      · rw [hoffset, String.ofList_cons, String.utf8ByteSize_append, String.utf8ByteSize_singleton,
          Nat.add_assoc]

end Reading

/-! ## What can be completed -/

/-- **What can be completed is what can be read.** -/
theorem completable_iff {t : String} :
    Completable t ↔ ∃ s, Reading.start.readAll t.toList = .ok s := by
  refine ⟨?_, ?_⟩
  · rintro ⟨more, r, h⟩
    obtain ⟨s', hread, -⟩ := Reading.readFrom_eq_ok_iff.1 h
    rw [String.toList_append] at hread
    obtain ⟨s, hs, -⟩ := Reading.exists_readAll_of_append hread
    exact ⟨s, hs⟩
  · rintro ⟨s, hs⟩
    obtain ⟨more, s', r, hread, hr⟩ := s.exists_completion
    refine ⟨String.ofList more, r, Reading.readFrom_eq_ok_iff.2 ⟨s', ?_, hr⟩⟩
    rw [String.toList_append, String.toList_ofList, Reading.readAll_append hs, hread]

/-- Where the parser stops, nothing longer can be read. -/
theorem Reading.prefix_of_stops {s s' s'' : Reading} {before after longer : List Char}
    {e : ParseError} (hread : s.readAll before = .ok s') (hstops : s'.Stops after e)
    (hlonger : longer <+: before ++ after) (h : s.readAll longer = .ok s'') :
    longer <+: before := by
  rcases List.prefix_or_prefix_of_prefix hlonger (List.prefix_append before after) with hle | hge
  · exact hle
  obtain ⟨rest, rfl⟩ := hge
  cases rest with
  | nil => exact (List.append_nil before).symm ▸ List.prefix_rfl
  | cons c rest =>
    -- the character after the place of the error would have been read
    obtain ⟨after', rfl⟩ : ∃ after', after = c :: after' := by
      obtain ⟨after', hafter⟩ := hlonger
      rw [List.append_assoc] at hafter
      exact ⟨_, (List.append_cancel_left hafter).symm⟩
    rw [readAll_append hread] at h
    obtain ⟨s₁, hmove, -⟩ := exists_moves_of_readAll_cons h
    exact nomatch (step_eq_ok_iff.2 hmove).symm.trans hstops.2

/-- A text that starts another is no longer than it. -/
theorem utf8ByteSize_le_of_prefix {t t' : String} (h : t.toList <+: t'.toList) :
    t.utf8ByteSize ≤ t'.utf8ByteSize := by
  obtain ⟨rest, hrest⟩ := h
  obtain rfl : t ++ String.ofList rest = t' := by
    rw [← String.toList_inj, String.toList_append, String.toList_ofList, hrest]
  rw [String.utf8ByteSize_append]
  exact Nat.le_add_right _ _

/-- The longest part of a text that can be completed ends where the parser stops. -/
theorem exists_longest_of_error {text : String} {e : ParseError} (h : parse text = .error e) :
    ∃ before after, text = before ++ after ∧ before.utf8ByteSize = e.offset ∧ Completable before ∧
      ∀ longer after', text = longer ++ after' → Completable longer →
        longer.utf8ByteSize ≤ e.offset := by
  obtain ⟨before, after, s, htext, hread, hoffset, hstops⟩ := Reading.stops_of_readFrom h
  rw [Nat.zero_add] at hoffset
  refine ⟨.ofList before, .ofList after, ?_, hoffset.symm, ?_, ?_⟩
  · rw [← String.ofList_append, ← htext, String.ofList_toList]
  · rw [completable_iff, String.toList_ofList]
    exact ⟨s, hread⟩
  · intro longer after' htext' hlonger
    obtain ⟨s', hread'⟩ := completable_iff.1 hlonger
    have hprefix : longer.toList <+: before ++ after :=
      ⟨after'.toList, by rw [← htext, htext', String.toList_append]⟩
    have hlonger : longer.toList <+: before := Reading.prefix_of_stops hread hstops hprefix hread'
    rw [hoffset]
    exact utf8ByteSize_le_of_prefix (by rwa [String.toList_ofList])

/-- **The place of an error ends the longest part of the text that can be completed**: it lies
between two characters or at an end of the text, and the character after it is one too many. -/
theorem offset_of_parse_error {text : String} {e : ParseError} (h : parse text = .error e) :
    (⟨e.offset⟩ : String.Pos.Raw).IsValid text ∧ e.offset ≤ text.utf8ByteSize ∧
      IsGreatest {n | ∃ before after, text = before ++ after ∧ before.utf8ByteSize = n ∧
        Completable before} e.offset ∧
      ∀ before c after, text = before ++ String.singleton c ++ after →
        before.utf8ByteSize = e.offset → ¬ Completable (before ++ String.singleton c) := by
  obtain ⟨before, after, htext, hsize, hbefore, hlongest⟩ := exists_longest_of_error h
  refine ⟨?_, ?_, ⟨⟨before, after, htext, hsize, hbefore⟩, ?_⟩, ?_⟩
  · rw [String.Pos.Raw.isValid_iff_exists_append]
    exact ⟨before, after, htext, String.Pos.Raw.ext hsize.symm⟩
  · rw [htext, String.utf8ByteSize_append, hsize]
    exact Nat.le_add_right _ _
  · rintro n ⟨longer, after', htext', rfl, hlonger⟩
    exact hlongest longer after' htext' hlonger
  · intro before' c after' htext' hsize' hcompletable
    have hle := hlongest _ _ htext' hcompletable
    rw [String.utf8ByteSize_append, String.utf8ByteSize_singleton, hsize'] at hle
    exact absurd c.utf8Size_pos (by omega)

/-- Behind an expression a closing bracket is one too many; the blank before it is not. -/
theorem offset_of_unopened_bracket :
    parse "∅ )" = .error ⟨some ')', 4, .ending⟩ ∧
      IsGreatest {n | ∃ before after, "∅ )" = before ++ after ∧ before.utf8ByteSize = n ∧
        Completable before} 4 ∧ ¬ Completable "∅ )" := by
  have herror : parse "∅ )" = .error ⟨some ')', 4, .ending⟩ := rfl
  obtain ⟨-, -, hgreatest, hafter⟩ := offset_of_parse_error herror
  exact ⟨herror, hgreatest, hafter "∅ " ')' "" rfl (by decide)⟩

end FiniteAutomata.Regex
