import FiniteAutomata.Proofs.Regex.Rules

/-!
# Proofs/Regex/Descent — reading by the rules is what the parser does

Every rule of the grammar agrees with the parser: an operand is one more factor, an alternative is
under way behind its factors, and a bracket is a level of its own.  The rules for brackets are
nested as deep as there is `room`, so the agreement is by induction on it (`Rule.agrees_group`).
Where the parser stops, the rules around have added what it expects, so both give the same error
(`descend_eq`).
-/

namespace FiniteAutomata.Regex

namespace Rule

variable {n room depth : Nat} {s : Reading} {t : List Char} {c : Char} {G : List Glyph}

/-! ## Brackets that are not there, and those that are one too many -/

theorem openingBracket_of_free (h : Free [.opening] t) :
    openingBracket t = .error ⟨false, t, []⟩ := one_of_free contains_openings.1 h

theorem tooDeep_of_free (h : Free [.opening] t) :
    tooDeep t = .error ⟨false, t, [.label "nesting",
      .expected s!"at most {maxNesting} nested brackets"]⟩ := by
  have hpeek : peek openingBracket t = .error ⟨false, t, []⟩ := by
    rw [peek, openingBracket_of_free h]
  rw [tooDeep, context, context, bind_of_error hpeek]
  rfl

theorem tooDeep_of_opening (hc : Glyph.ofChar c = .opening) :
    tooDeep (c :: t) = .error ⟨true, c :: t, [.label "nesting",
      .expected s!"at most {maxNesting} nested brackets"]⟩ := by
  have hpeek : peek openingBracket (c :: t) = .ok (c, c :: t) := by
    rw [peek, openingBracket, one_of_pos (contains_openings.2 hc)]
  rw [tooDeep, context, context, bind_of_ok hpeek]
  rfl

/-- A group that is not there speaks of the bound of nesting if there is no room for it, and of
nothing otherwise. -/
theorem group_of_free (hroom : depth + room = maxNesting) (h : Free [.opening] t) :
    ∃ cs, group room t = .error ⟨false, t, cs⟩ ∧
      cs ++ operandContexts (depth + 1) = (Expected.missingOperand depth).contexts := by
  cases room with
  | zero =>
    obtain rfl : depth = maxNesting := hroom
    exact ⟨_, tooDeep_of_free h, rfl⟩
  | succ room =>
    have hlt : depth < maxNesting := hroom ▸ Nat.lt_add_of_pos_right room.succ_pos
    refine ⟨_, bind_of_error (openingBracket_of_free h), ?_⟩
    rw [Expected.missingOperand, if_pos hlt]
    rfl

/-! ## Operands -/

/-- What is assumed of the rule for groups: from a bracket on it agrees with the parser. -/
def GroupAgrees (room : Nat) : Prop :=
  ∀ {s : Reading} {t : List Char}, s.depth + room = maxNesting → ¬Free [.opening] t →
    Agrees (s.depth + 1) s t (fun x u s' _ => u ≠ [] ∧ s' = s.push x) (fun _ _ => False)
      (group room t)

/-- A character that is an operand. -/
theorem agrees_literal {test : Char → Bool} {value : Char → Regex Char}
    {A : List Char → List Context → Prop} (hone : Agrees n s t
      (fun c u s' _ => u ≠ [] ∧ s' = s.push (value c)) A (one test t)) :
    Agrees n s t (fun x u s' _ => u ≠ [] ∧ s' = s.push x) A
      ((one test >>= fun c => pure (value c) : Rule (Regex Char)) t) := by
  refine hone.bind fun {c u s' rest} h => .pure ?_
  rwa [List.append_nil]

theorem agrees_operand (hgroup : GroupAgrees room) (hroom : s.depth + room = maxNesting)
    (ht : Free [.blank] t) : Agrees (s.depth + 1) s t (fun x u s' _ => u ≠ [] ∧ s' = s.push x)
      (OperandMissing s.depth (s.depth + 1)) (operand (group room) t) := by
  refine .orElse ht (agrees_literal (.character .emptySet id .emptySet rfl)) fun hset => ?_
  refine .orElse ht (agrees_literal (.character .emptyWord id .emptyWord rfl)) fun hword => ?_
  refine .orElse (G := [.symbol]) ht (agrees_literal (.one ?_ ?_)) fun hsymbol => ?_
  · exact fun hc => ⟨_, .symbol hc, rfl⟩
  · exact fun hc => Glyph.ofChar_eq_iff.1 (List.mem_singleton.1 hc)
  by_cases hopening : Free [.opening] t
  · obtain ⟨cs, hfails, hcs⟩ := group_of_free hroom hopening
    rw [hfails]
    exact .absent (u := []) rfl (List.forall_mem_nil _)
      ⟨ht.append (hset.append (hword.append (hsymbol.append hopening))), hcs⟩
  · exact (hgroup hroom hopening).mono id False.elim

theorem agrees_atom (hgroup : GroupAgrees room) (hroom : s.depth + room = maxNesting) :
    Agrees s.depth s t (fun x u s' rest => u ≠ [] ∧ s' = s.push x ∧ Free [.blank] rest)
      (OperandMissing s.depth s.depth) (atom (group room) t) := by
  have hspaced : Agrees (s.depth + 1) s t
      (fun x u s' rest => u ≠ [] ∧ s' = s.push x ∧ Free [.blank] rest)
      (OperandMissing s.depth (s.depth + 1)) (spaced (operand (group room)) t) :=
    .spaced id fun ht => agrees_operand hgroup hroom ht
  exact hspaced.atom

/-- Every star applies to the last factor. -/
theorem agrees_stars (x : Regex Char) (ht : Free [.blank] t) :
    Agrees n (s.push x) t (fun stars _ s' rest =>
        s' = s.push (stars.foldl (fun r _ => .star r) x) ∧ Free [.blank, .star] rest)
      (fun _ _ => False) (many (spaced (one (· == '*'))) t) := by
  refine .many (G := [.blank]) (H := [.star])
    (J := fun stars s' => s' = s.push (stars.foldl (fun r _ => .star r) x))
    (List.mem_singleton.2 rfl) (fun {stars s₁ t} hstars _ => ?_) rfl ht
  subst hstars
  refine .spaced id fun _ => .character .star id .star ?_
  rw [List.foldl_append]
  rfl

theorem agrees_factor (hgroup : GroupAgrees room) (hroom : s.depth + room = maxNesting) :
    Agrees s.depth s t (fun x u s' rest => u ≠ [] ∧ s' = s.push x ∧ Free [.blank, .star] rest)
      (OperandMissing s.depth s.depth) (factor (group room) t) := by
  refine (agrees_atom hgroup hroom).bind fun {x u s₁ rest} h => ?_
  obtain ⟨hu, rfl, hrest⟩ := h
  refine (agrees_stars x hrest).bind fun {stars v s₂ rest} h => .pure ?_
  exact ⟨List.append_ne_nil_of_left_ne_nil hu _, h⟩

/-! ## Alternatives -/

variable {before : Option (Regex Char)} {a : Alternative} {level : Level} {outer : List Level}

theorem agrees_product (hgroup : GroupAgrees room) (hroom : outer.length + room = maxNesting) :
    Agrees outer.length ⟨⟨before, none⟩, outer⟩ t
      (fun x u s' rest => u ≠ [] ∧ (∃ a, s' = ⟨⟨before, some a⟩, outer⟩ ∧ a.value = x) ∧
        Free factorGlyphs rest)
      (OperandMissing outer.length outer.length) (product (group room) t) := by
  have hfactor {level : Level} {t : List Char} : Agrees outer.length ⟨level, outer⟩ t
      (fun x u s' rest => u ≠ [] ∧ s' = ⟨level.push x, outer⟩ ∧ Free [.blank, .star] rest)
      (OperandMissing outer.length outer.length) (factor (group room) t) :=
    agrees_factor (s := ⟨level, outer⟩) hgroup hroom
  refine hfactor.bind fun {x u s₁ rest} h => ?_
  obtain ⟨hu, rfl, hrest⟩ := h
  have hothers : Agrees outer.length ⟨Level.push ⟨before, none⟩ x, outer⟩ rest
      (fun others _ s' rest => (∃ a, s' = ⟨⟨before, some a⟩, outer⟩ ∧
        a.value = others.foldl .concat x) ∧ Free factorGlyphs rest)
      (fun _ _ => False) (many (factor (group room)) rest) := by
    refine .many (by decide) (fun {others s₁ t} h _ => ?_) ⟨⟨none, x⟩, rfl, rfl⟩ hrest
    obtain ⟨a, rfl, ha⟩ := h
    refine hfactor.mono (fun {y u s₂ rest} h => ?_) And.left
    obtain ⟨hu, rfl, hrest⟩ := h
    refine ⟨hu, ⟨⟨some a.value, y⟩, rfl, ?_⟩, hrest⟩
    rw [List.foldl_append, ← ha]
    rfl
  refine hothers.bind fun {others v s₂ rest} h => .pure ?_
  exact ⟨List.append_ne_nil_of_left_ne_nil hu _, h⟩

/-- Behind a bar the parser is where nothing of the next alternative is read yet. -/
theorem agrees_alternative (hgroup : GroupAgrees room) (hroom : outer.length + room = maxNesting) :
    Agrees outer.length ⟨⟨before, some a⟩, outer⟩ t
      (fun x u s' rest => u ≠ [] ∧ (∃ a', s' =
          ⟨⟨some (Level.close ⟨before, some a⟩ a), some a'⟩, outer⟩ ∧ a'.value = x) ∧
        Free factorGlyphs rest)
      (fun rest _ => Free [.bar] rest) (alternative (group room) t) := by
  have hbar : Agrees outer.length ⟨⟨before, some a⟩, outer⟩ t
      (fun _ u s' rest => u ≠ [] ∧
        s' = ⟨⟨some (Level.close ⟨before, some a⟩ a), none⟩, outer⟩ ∧ Free [.blank] rest)
      (fun rest _ => Free [.bar] rest) (spaced (one (· == '|')) t) :=
    .spaced id fun _ => .character .bar id .bar rfl
  refine hbar.bind fun {c u s₁ rest} h => ?_
  obtain ⟨hu, rfl, -⟩ := h
  refine ((agrees_product hgroup hroom).commit fun h => ?_).mono (fun {x v s₂ rest} h => ?_) id
  · exact ⟨_, Reading.stops_of_operand_missing rfl h.1, h.2⟩
  · exact ⟨List.append_ne_nil_of_left_ne_nil hu _, h.2⟩

theorem agrees_union (outer : List Level) (hgroup : GroupAgrees room)
    (hroom : outer.length + room = maxNesting) :
    Agrees outer.length ⟨.start, outer⟩ t
      (fun x u s' rest => u ≠ [] ∧ (∃ before a, s' = ⟨⟨before, some a⟩, outer⟩ ∧
        Level.close ⟨before, some a⟩ a = x) ∧ Free unionGlyphs rest)
      (OperandMissing outer.length outer.length) (union (group room) t) := by
  refine (agrees_product hgroup hroom).bind fun {x u s₁ rest} h => ?_
  obtain ⟨hu, ⟨first, rfl, rfl⟩, hrest⟩ := h
  have hothers : Agrees outer.length ⟨⟨none, some first⟩, outer⟩ rest
      (fun others _ s' rest => (∃ before a, s' = ⟨⟨before, some a⟩, outer⟩ ∧
        Level.close ⟨before, some a⟩ a = others.foldl .union first.value) ∧ Free unionGlyphs rest)
      (fun _ _ => False) (many (alternative (group room)) rest) := by
    refine .many (by decide) (fun {others s₁ t} h _ => ?_) ⟨none, first, rfl, rfl⟩ hrest
    obtain ⟨before, last, rfl, hlast⟩ := h
    refine (agrees_alternative hgroup hroom).mono (fun {y u s₂ rest} h => ?_) id
    obtain ⟨hu, ⟨a, rfl, rfl⟩, hrest⟩ := h
    refine ⟨hu, ⟨_, a, rfl, ?_⟩, hrest⟩
    rw [List.foldl_append, ← hlast]
    rfl
  refine hothers.bind fun {others v s₂ rest} h => .pure ?_
  exact ⟨List.append_ne_nil_of_left_ne_nil hu _, h⟩

/-! ## Groups -/

theorem agrees_openingBracket (hs : s.depth < maxNesting) (ht : ¬Free [.opening] t) :
    Agrees n s t (fun _ u s' _ => u ≠ [] ∧ s' = ⟨.start, s.level :: s.outer⟩) (fun _ _ => False)
      (openingBracket t) := by
  obtain ⟨c, t, rfl, hc⟩ := exists_cons_of_not_free ht
  have htest := contains_openings.2 hc
  have hmove := Reading.Moves.opening (List.contains_iff_mem.1 htest) hs
  rw [openingBracket, one_of_pos htest]
  exact .reached (u := [c]) rfl (Reading.readAll_cons hmove []) ⟨List.cons_ne_nil c [], rfl⟩

theorem agrees_closingBracket (ht : Free unionGlyphs t) :
    Agrees (outer.length + 1) ⟨⟨before, some a⟩, level :: outer⟩ t
      (fun _ _ s' _ => s' = ⟨level.push (Level.close ⟨before, some a⟩ a), outer⟩)
      (fun _ _ => False) (commit closingBracket t) := by
  by_cases hclosing : Free [.closing] t
  · have hfails : closingBracket t = .error ⟨false, t, [.expected "closing bracket"]⟩ := by
      rw [closingBracket, context, one_of_free contains_closings.1 hclosing]
      rfl
    rw [commit, hfails]
    exact .stopped (u := []) rfl rfl (Reading.stops_of_closing_missing (ht.append hclosing)) rfl
  · obtain ⟨c, t, rfl, hc⟩ := exists_cons_of_not_free hclosing
    have htest := contains_closings.2 hc
    have hreads : closingBracket (c :: t) = .ok (c, t) := by
      rw [closingBracket, context, one_of_pos htest]
      rfl
    rw [commit, hreads]
    exact .reached (u := [c]) rfl
      (Reading.readAll_cons (.closing (List.contains_iff_mem.1 htest)) []) rfl

/-- **A bracket is a level of its own**, and the last one that may be opened has no room inside. -/
theorem agrees_group (room : Nat) : GroupAgrees room := by
  induction room with
  | zero =>
    intro s t hroom ht
    obtain ⟨c, t, rfl, hc⟩ := exists_cons_of_not_free ht
    have hdepth : s.depth = maxNesting := hroom
    rw [group, tooDeep_of_opening hc]
    refine .stopped (u := []) rfl rfl (Reading.stops_of_too_deep hdepth hc) ?_
    rw [hdepth]
    rfl
  | succ room ih =>
    intro s t hroom ht
    have hdepth : s.depth < maxNesting := hroom ▸ Nat.lt_add_of_pos_right room.succ_pos
    have hroom' : (s.level :: s.outer).length + room = maxNesting := by
      rw [← hroom, List.length_cons, Reading.depth, Nat.add_right_comm, Nat.add_assoc]
    refine (agrees_openingBracket hdepth ht).bind fun {c u s₁ rest} h => ?_
    obtain ⟨hu, rfl⟩ := h
    -- behind the bracket every failure is final
    rw [commit_bind]
    refine ((agrees_union _ ih hroom').commit fun h => ?_).bind fun {x v s₁ rest'} h => ?_
    · exact ⟨_, Reading.stops_of_operand_missing rfl h.1, h.2⟩
    obtain ⟨-, ⟨before, a, rfl, rfl⟩, hrest⟩ := h
    rw [commit_bind]
    refine (agrees_closingBracket hrest).bind fun {c w s₁ rest''} h => ?_
    subst h
    exact .pure ⟨List.append_ne_nil_of_left_ne_nil hu _, rfl⟩

/-! ## Texts -/

/-- A whole text is read to a state that may end, or as far as the parser reads it. -/
theorem expression_cases (t : List Char) :
    (∃ x s, expression t = .ok (x, []) ∧ Reading.start.readAll t = .ok s ∧ s.finish = .ok x) ∨
    ∃ f u s e, expression t = .error f ∧ t = u ++ f.rest ∧ Reading.start.readAll u = .ok s ∧
      s.Stops f.rest e ∧ f.contexts = e.expected.contexts := by
  have hunion : Agrees 0 .start t (fun x u s' rest => u ≠ [] ∧
      ((∃ before a, s' = ⟨⟨before, some a⟩, []⟩ ∧ Level.close ⟨before, some a⟩ a = x) ∧
        Free unionGlyphs rest) ∧ Free [.blank] rest)
      (OperandMissing 0 0) (spaced (union (group maxNesting)) t) := by
    refine .spaced (fun {x s' rest} h => ?_) fun _ => agrees_union [] (agrees_group maxNesting) rfl
    rwa [dropWhile_blanks_of_free (by decide) h.2]
  rw [expression]
  generalize hres : spaced (union (group maxNesting)) t = res at hunion
  cases hunion with
  | @reached x u rest s' htext hread h =>
    obtain ⟨-, ⟨⟨before, a, rfl, rfl⟩, hrest⟩, -⟩ := h
    rw [bind_of_ok hres]
    cases rest with
    | nil =>
      rw [List.append_nil] at htext
      exact .inl ⟨_, _, rfl, htext ▸ hread, rfl⟩
    | cons c rest =>
      exact .inr ⟨_, u, _, _, rfl, htext, hread, Reading.stops_of_ending_missing hrest, rfl⟩
  | @absent u rest cs htext hu h =>
    have hcs := h.2
    rw [operandContexts, List.append_nil] at hcs
    rw [bind_of_error hres]
    exact .inr ⟨_, u, _, _, rfl, htext, Reading.readAll_blanks _ hu,
      Reading.stops_of_operand_missing rfl h.1, hcs⟩
  | @stopped u rest cs s' e htext hread hstops hcs =>
    rw [operandContexts, List.append_nil] at hcs
    rw [bind_of_error hres]
    exact .inr ⟨_, u, _, _, rfl, htext, hread, hstops, hcs⟩

end Rule

/-- **Reading by the rules is what the parser does**, errors included. -/
theorem descend_eq (text : String) :
    descend text = (parse text).mapError fun e => (e.message, e.offset) := by
  rcases Rule.expression_cases text.toList with ⟨r, s, hrule, hread, hfinish⟩ |
    ⟨f, before, s, e, hrule, htext, hread, hstops, hcontexts⟩
  · have hparse : parse text = .ok r := Reading.readFrom_eq_ok_iff.2 ⟨s, hread, hfinish⟩
    unfold descend
    rw [hrule, hparse]
    rfl
  · have hparse : parse text =
        .error ⟨e.found, (String.ofList before).utf8ByteSize, e.expected⟩ := by
      rw [parse, htext, Reading.readFrom_of_stops hread hstops, Nat.zero_add]
    have hmessage : f.message = e.message :=
      f.message_eq hstops.found_eq hcontexts hstops.expected_ne
    have hoffset : text.utf8ByteSize - (String.ofList f.rest).utf8ByteSize =
        (String.ofList before).utf8ByteSize := by
      rw [← String.ofList_toList (s := text), htext, String.ofList_append,
        String.utf8ByteSize_append, Nat.add_sub_cancel]
    unfold descend
    rw [hrule, hparse]
    exact congrArg Except.error (Prod.ext hmessage hoffset)

end FiniteAutomata.Regex
