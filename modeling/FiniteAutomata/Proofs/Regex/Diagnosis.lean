import FiniteAutomata.Proofs.Regex.Descent

/-!
# Proofs/Regex/Diagnosis — the place of an error decides what is said of it

What the parser knows at a place can be read off the text before it: how many brackets are open, and
whether an operand has to come next (`Reading.needsOperand_of_readAll`).  With what comes next this
decides the whole message (`diagnosis`), whether it is put together from the state of the parser or
collected by the rules around the failure.
-/

namespace FiniteAutomata.Regex

/-- What is said of the next character, or of the end of the text. -/
def encounter (after : List Char) : String :=
  match after.head? with
  | some c => "unexpected `" ++ c.toString ++ "`"
  | none => "unexpected end of input"

/-- What is said about what could have stood at a place inside `depth` brackets, where an operand is
required or not and the next character opens a bracket or not. -/
def remark (required : Bool) (depth : Nat) (opens : Bool) : String :=
  if required ∧ depth < maxNesting then
    ": invalid atom, expected " ++
      ", ".intercalate (List.replicate (depth + 1) Expected.operandText)
  else if ¬required ∧ depth = 0 then
    ""
  else if depth = maxNesting ∧ (required ∨ opens) then
    ": invalid nesting, expected " ++ ", ".intercalate
      ("at most 128 nested brackets" :: List.replicate (maxNesting + 1) Expected.operandText)
  else
    ": invalid atom, expected " ++
      ", ".intercalate ("closing bracket" :: List.replicate depth Expected.operandText)

/-- What is said of a text that can be read up to a place and no further. -/
def diagnosis (before after : List Char) : String :=
  encounter after ++
    remark (needsOperand before) (openBrackets before) (after.head?.any openings.contains)

variable {before after : List Char} {c : Char} {s s' : Reading} {e : ParseError}

/-! ## What the text before a place says -/

/-- The part the last character plays decides whether an operand has to follow, unless it is a
blank. -/
theorem needsOperand_concat (before : List Char) (c : Char) : needsOperand (before ++ [c]) =
    if Glyph.ofChar c = .blank then needsOperand before
    else decide (Glyph.ofChar c = .bar ∨ Glyph.ofChar c = .opening) := by
  have hblank : Glyph.ofChar c = .blank ↔ c ∈ blanks := Glyph.ofChar_eq_iff
  have happend : significant (before ++ [c]) = significant before ++ significant [c] :=
    List.filter_append ..
  by_cases hc : c ∈ blanks
  · have hskipped : significant [c] = [] := List.filter_cons_of_neg (by simpa using hc)
    rw [if_pos (hblank.2 hc), needsOperand, happend, hskipped, List.append_nil, needsOperand]
  · have hkept : significant [c] = [c] := List.filter_cons_of_pos (by simpa using hc)
    rw [if_neg (mt hblank.1 hc), needsOperand, happend, hkept, List.getLast?_concat]
    simp [Glyph.ofChar_eq_iff, Glyph.Plays, beq_eq_decide]

namespace Reading

/-- An operand is missing where nothing of an alternative is read yet. -/
theorem Moves.needsOperand_concat (h : s.Moves c s')
    (hs : needsOperand before = s.level.current.isNone) :
    needsOperand (before ++ [c]) = s'.level.current.isNone := by
  rw [Regex.needsOperand_concat]
  cases h with
  | blank hc =>
    have hglyph : Glyph.ofChar c = .blank := Glyph.ofChar_eq_iff.2 hc
    rw [hglyph]
    exact hs
  | symbol hc =>
    have hglyph : Glyph.ofChar c = .symbol := Glyph.ofChar_eq_iff.2 hc
    rw [hglyph]
    rfl
  | opening hc =>
    have hglyph : Glyph.ofChar c = .opening := Glyph.ofChar_eq_iff.2 hc
    rw [hglyph]
    rfl
  | closing hc =>
    have hglyph : Glyph.ofChar c = .closing := Glyph.ofChar_eq_iff.2 hc
    rw [hglyph]
    rfl
  | _ => rfl

theorem needsOperand_of_readAll (h : start.readAll before = .ok s) :
    needsOperand before = s.level.current.isNone := by
  induction before using List.reverseRecOn generalizing s with
  | nil =>
    obtain rfl := Except.ok.inj h
    rfl
  | append_singleton before c ih =>
    obtain ⟨s₁, hread, hlast⟩ := exists_readAll_of_append h
    obtain ⟨s₂, hmove, hnil⟩ := exists_moves_of_readAll_cons hlast
    obtain rfl := Except.ok.inj hnil
    exact hmove.needsOperand_concat (ih hread)

theorem openBrackets_of_readAll (h : start.readAll before = .ok s) :
    openBrackets before = s.depth := by
  have hdepth := depth_of_readAll h
  rw [show start.depth = 0 from rfl, Nat.zero_add] at hdepth
  rw [openBrackets, ← hdepth, Nat.add_sub_cancel]

/-! ## What is said -/

theorem expected_eq (s : Reading) : s.expected =
    if s.level.current.isNone then .missingOperand s.depth
    else if s.depth = 0 then .ending else .closing s.depth := by
  rw [expected]
  cases s.level.current with
  | none => rfl
  | some a => rfl

end Reading

namespace ParseError

theorem message_of_label {label : String} (h : e.expected.label? = some label) : e.message =
    e.foundText ++ (": invalid " ++ label ++ ", expected " ++
      ", ".intercalate e.expected.descriptions) := by
  rw [message, Expected.text?, h]
  change _ ++ ": " ++ ("invalid " ++ label ++ ", expected " ++ _) =
    _ ++ (": " ++ "invalid " ++ label ++ ", expected " ++ _)
  simp only [String.append_assoc]

/-- **A message is a remark on what was met**, whatever the parser expects at the place. -/
theorem message_eq {required opens : Bool} {depth : Nat} (hdepth : depth ≤ maxNesting)
    (h : e.expected = if maxNesting ≤ depth ∧ opens then .shallower
      else if required then .missingOperand depth
      else if depth = 0 then .ending else .closing depth) :
    e.message = e.foundText ++ remark required depth opens := by
  rw [remark]
  by_cases hoperand : required ∧ depth < maxNesting
  · have hexpected : e.expected = .operand depth := by
      rw [h, if_neg fun hbound => hoperand.2.not_ge hbound.1, if_pos hoperand.1,
        Expected.missingOperand, if_pos hoperand.2]
    have hlabel : e.expected.label? = some "atom" := hexpected ▸ rfl
    rw [if_pos hoperand, message_of_label hlabel, hexpected]
    rfl
  by_cases hending : ¬required ∧ depth = 0
  · have hexpected : e.expected = .ending := by
      have hbelow : ¬maxNesting ≤ depth := by rw [hending.2]; decide
      rw [h, if_neg fun hbound => hbelow hbound.1, if_neg hending.1, if_pos hending.2]
    rw [if_neg hoperand, if_pos hending, message, hexpected, String.append_empty]
    rfl
  by_cases hbound : depth = maxNesting ∧ (required ∨ opens)
  · have hexpected : e.expected = .shallower := by
      rw [h]
      split
      · rfl
      · rename_i hopens
        have hrequired : required := hbound.2.resolve_right fun ho => hopens ⟨hbound.1.ge, ho⟩
        rw [if_pos hrequired, Expected.missingOperand, if_neg hbound.1.not_lt]
    have hlabel : e.expected.label? = some "nesting" := hexpected ▸ rfl
    rw [if_neg hoperand, if_neg hending, if_pos hbound, message_of_label hlabel, hexpected]
    rfl
  · have hexpected : e.expected = .closing depth := by
      have hrequired : ¬required := fun hr =>
        hdepth.lt_or_eq.elim (fun hlt => hoperand ⟨hr, hlt⟩) fun heq => hbound ⟨heq, .inl hr⟩
      rw [h, if_neg fun ho => hbound ⟨hdepth.antisymm ho.1, .inr ho.2⟩, if_neg hrequired,
        if_neg fun hzero => hending ⟨hrequired, hzero⟩]
    have hlabel : e.expected.label? = some "atom" := hexpected ▸ rfl
    rw [if_neg hoperand, if_neg hending, if_neg hbound, message_of_label hlabel, hexpected]
    rfl

end ParseError

/-- **Where the parser stops its message is the diagnosis of the place.** -/
theorem Reading.Stops.message_eq (hread : Reading.start.readAll before = .ok s)
    (hstops : s.Stops after e) : e.message = diagnosis before after := by
  have hdepth : s.depth ≤ maxNesting := depth_le_of_readAll hread (Nat.zero_le _)
  have hfound : e.foundText = encounter after := by
    rw [ParseError.foundText, hstops.found_eq]
    rfl
  have hexpected := hstops.expected_eq
  rw [s.expected_eq] at hexpected
  rw [ParseError.message_eq hdepth hexpected, hfound, diagnosis, needsOperand_of_readAll hread,
    openBrackets_of_readAll hread]

/-- **What is said of an error is determined by where it is.**  The message, which the rules around
the failure have put together, is the diagnosis of the place: it names the character that was met,
and what could have stood there follows from how many brackets are open, whether an operand is
required and whether one more bracket is opened. -/
theorem message_of_parse_error {text : String} {e : ParseError} (h : parse text = .error e) :
    ∃ before after : List Char, text.toList = before ++ after ∧
      (String.ofList before).utf8ByteSize = e.offset ∧ openBrackets before ≤ maxNesting ∧
      descend text = .error (diagnosis before after, e.offset) ∧
      e.message = diagnosis before after := by
  obtain ⟨before, after, s, htext, hread, hoffset, hstops⟩ := Reading.stops_of_readFrom h
  have hmessage := hstops.message_eq hread
  refine ⟨before, after, htext, ?_, ?_, ?_, hmessage⟩
  · rw [hoffset, Nat.zero_add]
  · rw [Reading.openBrackets_of_readAll hread]
    exact Reading.depth_le_of_readAll hread (Nat.zero_le _)
  · rw [descend_eq, h, ← hmessage]
    rfl

/-- In an open bracket an operand is required behind a bar, and a closing bracket without the bar. -/
theorem message_of_open_bracket :
    (parse "(a|" = .error ⟨none, 3, .operand 1⟩ ∧
      descend "(a|" = .error ("unexpected end of input: invalid atom, expected " ++
        ", ".intercalate [Expected.operandText, Expected.operandText], 3)) ∧
    parse "(a" = .error ⟨none, 2, .closing 1⟩ ∧
      descend "(a" = .error ("unexpected end of input: invalid atom, expected closing bracket, " ++
        Expected.operandText, 2) := by
  have hoperand : parse "(a|" = .error ⟨none, 3, .operand 1⟩ := rfl
  have hclosing : parse "(a" = .error ⟨none, 2, .closing 1⟩ := rfl
  obtain ⟨_, _, -, -, -, hdescend₁, hmessage₁⟩ := message_of_parse_error hoperand
  obtain ⟨_, _, -, -, -, hdescend₂, hmessage₂⟩ := message_of_parse_error hclosing
  refine ⟨⟨hoperand, ?_⟩, hclosing, ?_⟩
  · rw [hdescend₁, ← hmessage₁]
    rfl
  · rw [hdescend₂, ← hmessage₂]
    rfl

end FiniteAutomata.Regex
