import FiniteAutomata.Proofs.Regex.Completion
import FiniteAutomata.Proofs.Regex.Depth
import FiniteAutomata.Regex.Descent

/-!
# Proofs/Regex/Stopping — where the parser stops, and what is said there

The part that the next character plays decides whether the parser can go on (`Free`), and its state
what it expects if it cannot (`Reading.Stops.expected_eq`).  To this corresponds a list of what the
rules around a failure add, the innermost first (`Expected.contexts`): put into words, it is the
message of the parser (`Failure.message_eq`).
-/

namespace FiniteAutomata.Regex

/-! ## What comes next -/

/-- No character that plays one of these parts comes first. -/
def Free (G : List Glyph) : List Char → Prop
  | [] => True
  | c :: _ => Glyph.ofChar c ∉ G

variable {G H : List Glyph} {t u rest : List Char} {c : Char} {s s' : Reading}

theorem Free.append (h : Free G t) (h' : Free H t) : Free (G ++ H) t := by
  cases t with
  | nil => trivial
  | cons c t => exact fun hc => (List.mem_append.1 hc).elim h h'

theorem exists_cons_of_not_free {g : Glyph} (h : ¬Free [g] t) :
    ∃ c t', t = c :: t' ∧ Glyph.ofChar c = g := by
  cases t with
  | nil => exact absurd trivial h
  | cons c t => exact ⟨c, t, rfl, List.mem_singleton.1 (not_not.1 h)⟩

theorem mem_blanks_of_mem_takeWhile : ∀ c ∈ t.takeWhile blanks.contains, c ∈ blanks :=
  fun c hc => List.contains_iff_mem.1 (List.all_eq_true.1 List.all_takeWhile c hc)

theorem free_dropWhile_blanks (t : List Char) : Free [.blank] (t.dropWhile blanks.contains) := by
  induction t with
  | nil => trivial
  | cons c t ih =>
    by_cases hc : blanks.contains c
    · rwa [List.dropWhile_cons_of_pos hc]
    · rw [List.dropWhile_cons_of_neg hc]
      intro hblank
      exact hc (List.contains_iff_mem.2 (Glyph.ofChar_eq_iff.1 (List.mem_singleton.1 hblank)))

/-- Where no blank comes first there is none to skip. -/
theorem eq_nil_of_blanks (hG : .blank ∈ G) (h : Free G (u ++ rest)) (hu : ∀ c ∈ u, c ∈ blanks) :
    u = [] := by
  cases u with
  | nil => rfl
  | cons c u =>
    have hglyph : Glyph.ofChar c = .blank := Glyph.ofChar_eq_iff.2 (hu c (List.mem_cons_self ..))
    exact absurd (hglyph ▸ hG) h

theorem dropWhile_blanks_of_free (hG : .blank ∈ G) (h : Free G t) :
    t.dropWhile blanks.contains = t := by
  have htext : t.takeWhile blanks.contains ++ t.dropWhile blanks.contains = t :=
    List.takeWhile_append_dropWhile
  have hnil : t.takeWhile blanks.contains = [] :=
    eq_nil_of_blanks hG (htext.symm ▸ h) mem_blanks_of_mem_takeWhile
  rwa [hnil] at htext

/-! ## Where the parser stops -/

/-- The parts with which an operand begins. -/
def operandGlyphs : List Glyph := [.emptySet, .emptyWord, .symbol, .opening]

/-- The parts that go on with an alternative after an operand. -/
def factorGlyphs : List Glyph := [.blank, .star] ++ .blank :: operandGlyphs

/-- The parts that go on with a union after an operand. -/
def unionGlyphs : List Glyph := factorGlyphs ++ [.bar]

/-- What is expected inside `depth` brackets where an operand is missing. -/
def Expected.missingOperand (depth : Nat) : Expected :=
  if depth < maxNesting then operand depth else shallower

namespace Reading

theorem readAll_blanks (s : Reading) (hu : ∀ c ∈ u, c ∈ blanks) : s.readAll u = .ok s := by
  induction u with
  | nil => rfl
  | cons c u ih =>
    obtain ⟨hc, hu⟩ := List.forall_mem_cons.1 hu
    exact (readAll_cons (.blank hc) u).trans (ih hu)

/-- Where an operand is missing the parser stops. -/
theorem stops_of_operand_missing (hs : s.level.current = none)
    (ht : Free (.blank :: operandGlyphs) t) : s.Stops t ⟨t.head?, 0, .missingOperand s.depth⟩ := by
  obtain ⟨⟨before, current⟩, outer⟩ := s
  obtain rfl : current = none := hs
  cases t with
  | nil => exact ⟨rfl, rfl⟩
  | cons c t =>
    change Glyph.ofChar c ∉ _ at ht
    refine ⟨rfl, ?_⟩
    rw [step]
    generalize Glyph.ofChar c = g at ht
    cases g with
    | star | bar | closing | other => rfl
    | blank | emptySet | emptyWord | symbol | opening => exact absurd (by decide) ht

variable {before : Option (Regex Char)} {a : Alternative} {level : Level} {outer : List Level}

/-- Inside a bracket a finished alternative needs a bar or a closing bracket. -/
theorem stops_of_closing_missing (ht : Free (unionGlyphs ++ [.closing]) t) :
    Stops ⟨⟨before, some a⟩, level :: outer⟩ t ⟨t.head?, 0, .closing (outer.length + 1)⟩ := by
  cases t with
  | nil => exact ⟨rfl, rfl⟩
  | cons c t =>
    change Glyph.ofChar c ∉ _ at ht
    refine ⟨rfl, ?_⟩
    rw [step]
    generalize Glyph.ofChar c = g at ht
    cases g with
    | other => rfl
    | _ => exact absurd (by decide) ht

/-- Outside all brackets nothing but a bar goes on behind a finished alternative. -/
theorem stops_of_ending_missing (ht : Free unionGlyphs (c :: t)) :
    Stops ⟨⟨before, some a⟩, []⟩ (c :: t) ⟨some c, 0, .ending⟩ := by
  change Glyph.ofChar c ∉ _ at ht
  refine ⟨rfl, ?_⟩
  rw [step]
  generalize Glyph.ofChar c = g at ht
  cases g with
  | other | closing => rfl
  | _ => exact absurd (by decide) ht

/-- Where no more brackets may be opened the parser stops at one. -/
theorem stops_of_too_deep (hs : s.depth = maxNesting) (hc : Glyph.ofChar c = .opening) :
    s.Stops (c :: t) ⟨some c, 0, .shallower⟩ := by
  refine ⟨rfl, ?_⟩
  rw [step, hc, hs]
  rfl

/-! ## Errors -/

variable {before after : List Char} {e : ParseError}

theorem Stops.found_eq (h : s.Stops after e) : e.found = after.head? := by
  cases after with
  | nil => exact h.1
  | cons c after => exact h.1

theorem eq_of_finish_eq_error {x : Expected} (h : s.finish = .error x) : x = s.expected := by
  rw [finish] at h
  split at h
  · cases h
  · exact (Except.error.inj h).symm

theorem eq_of_step_eq_error {x : Expected} (h : s.step c = .error x) :
    x = if maxNesting ≤ s.depth ∧ openings.contains c then .shallower else s.expected := by
  simp only [contains_openings]
  rw [step] at h
  generalize Glyph.ofChar c = g at h
  cases g with
  | opening =>
    dsimp only at h
    by_cases hdepth : s.depth < maxNesting
    · rw [if_pos hdepth] at h
      cases h
    · rw [if_neg hdepth] at h
      rw [if_pos ⟨Nat.le_of_not_lt hdepth, rfl⟩]
      exact (Except.error.inj h).symm
  | star | bar | closing =>
    rw [if_neg fun hopening => Glyph.noConfusion hopening.2]
    dsimp only at h
    split at h
    · cases h
    · exact (Except.error.inj h).symm
  | other =>
    rw [if_neg fun hopening => Glyph.noConfusion hopening.2]
    exact (Except.error.inj h).symm
  | blank | emptySet | emptyWord | symbol => cases h

/-- **What the parser expects where it stops**: less nesting if it meets one bracket too many, and
otherwise what its state says. -/
theorem Stops.expected_eq (h : s.Stops after e) : e.expected =
    if maxNesting ≤ s.depth ∧ after.head?.any openings.contains then .shallower
    else s.expected := by
  cases after with
  | nil =>
    rw [if_neg fun hopening => Bool.noConfusion hopening.2]
    exact eq_of_finish_eq_error h.2
  | cons c after => exact eq_of_step_eq_error h.2

/-- Outside all brackets no closing one is expected. -/
theorem Stops.expected_ne (h : s.Stops after e) : e.expected ≠ .closing 0 := by
  rw [h.expected_eq]
  split
  · exact nofun
  · rw [expected]
    split
    · split <;> exact nofun
    · split
      · exact nofun
      · rename_i hdepth
        exact fun hclosing => hdepth (Expected.closing.inj hclosing)

/-- Where the parser stops, reading fails. -/
theorem readFrom_of_stops {offset : Nat} (hread : s.readAll before = .ok s')
    (hstops : s'.Stops after e) : s.readFrom offset (before ++ after) =
      .error ⟨e.found, offset + (String.ofList before).utf8ByteSize, e.expected⟩ := by
  induction before generalizing s offset with
  | nil =>
    obtain rfl := Except.ok.inj hread
    cases after with
    | nil =>
      rw [List.nil_append, readFrom, hstops.2, ← hstops.1]
      rfl
    | cons c after =>
      rw [List.nil_append, readFrom, hstops.2, hstops.1]
      rfl
  | cons c before ih =>
    obtain ⟨s₁, hmove, hread⟩ := exists_moves_of_readAll_cons hread
    rw [List.cons_append, readFrom, step_eq_ok_iff.2 hmove]
    refine (ih hread).trans ?_
    rw [String.ofList_cons, String.utf8ByteSize_append, String.utf8ByteSize_singleton,
      Nat.add_assoc]

end Reading

/-! ## What the rules add -/

/-- What the atoms around a failure add, of which there are `n`. -/
def operandContexts : Nat → List Context
  | 0 => []
  | n + 1 => .label "atom" :: .expected Expected.operandText :: operandContexts n

/-- What the rules have added to a failure where the parser expects this. -/
def Expected.contexts : Expected → List Context
  | operand depth => operandContexts (depth + 1)
  | shallower => .label "nesting" :: .expected s!"at most {maxNesting} nested brackets" ::
      operandContexts (maxNesting + 1)
  | closing depth => .expected "closing bracket" :: operandContexts depth
  | ending => []

namespace Expected

theorem descriptions_operandContexts (n : Nat) :
    (operandContexts n).filterMap Context.expected? = List.replicate n operandText := by
  induction n with
  | zero => rfl
  | succ n ih =>
    rw [List.replicate_succ, ← ih]
    rfl

theorem descriptions_contexts (e : Expected) :
    e.contexts.filterMap Context.expected? = e.descriptions := by
  cases e with
  | operand depth => exact descriptions_operandContexts (depth + 1)
  | shallower => exact congrArg (_ :: ·) (descriptions_operandContexts (maxNesting + 1))
  | closing depth => exact congrArg (_ :: ·) (descriptions_operandContexts depth)
  | ending => rfl

theorem label?_contexts {e : Expected} (he : e ≠ .closing 0) :
    e.contexts.findSome? Context.label? = e.label? := by
  cases e with
  | closing depth =>
    cases depth with
    | zero => exact absurd rfl he
    | succ depth => rfl
  | _ => rfl

theorem describe_contexts {e : Expected} (he : e ≠ .closing 0) :
    Context.describe e.contexts = e.text?.getD "" := by
  rw [Context.describe, descriptions_contexts, label?_contexts he]
  cases e with
  | ending => rfl
  | operand depth => rfl
  | shallower => rfl
  | closing depth => rfl

theorem text?_ne_some_empty (e : Expected) : e.text? ≠ some "" := by
  rw [text?]
  intro h
  obtain ⟨label, -, htext⟩ := Option.map_eq_some_iff.1 h
  exact absurd htext (by simp)

end Expected

/-- A failure and an error of the parser say the same, if they are about the same place and the
rules have added what the parser expects. -/
theorem Failure.message_eq {f : Failure} {e : ParseError} (hfound : e.found = f.rest.head?)
    (hcontexts : f.contexts = e.expected.contexts) (he : e.expected ≠ .closing 0) :
    f.message = e.message := by
  have hfoundText : f.foundText = e.foundText := by
    rw [foundText, ParseError.foundText, hfound]
    cases f.rest with
    | nil => rfl
    | cons c rest => rfl
  rw [message, ParseError.message, hfoundText, hcontexts, Expected.describe_contexts he]
  cases htext : e.expected.text? with
  | none => rfl
  | some text =>
    refine if_neg ?_
    rintro rfl
    exact e.expected.text?_ne_some_empty htext

end FiniteAutomata.Regex
