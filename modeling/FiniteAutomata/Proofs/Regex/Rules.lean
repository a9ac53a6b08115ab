import FiniteAutomata.Proofs.Regex.Stopping

/-!
# Proofs/Regex/Rules — one rule and the parser side by side

A rule is given a text and the parser a state to read it from.  `Rule.Agrees` compares the two: what
the rule takes off the text the parser reads; a failure that is committed is where the parser stops;
and a failure that is not committed takes off blanks only, so that nothing is lost if another rule
is tried.  The combinators keep this (`Rule.Agrees.bind`, `.commit`, `.orElse`, `.many`, `.spaced`).
-/

namespace FiniteAutomata.Regex

variable {G H : List Glyph} {t u rest : List Char} {c : Char} {s s' : Reading}

/-- An operand is missing inside `depth` brackets, and with `n` atoms around all that can be expected
will have been added. -/
def OperandMissing (depth n : Nat) (rest : List Char) (cs : List Context) : Prop :=
  Free (.blank :: operandGlyphs) rest ∧
    cs ++ operandContexts n = (Expected.missingOperand depth).contexts

/-! ## Rules -/

namespace Rule

variable {β γ : Type} {p q : Rule β} {f : β → Rule γ} {x : β}

theorem bind_of_ok (h : p t = .ok (x, rest)) : (p >>= f) t = f x rest := by
  change (p t >>= fun y => f y.1 y.2) = _
  rw [h]
  rfl

theorem bind_of_error {e : Failure} (h : p t = .error e) : (p >>= f) t = .error e := by
  change (p t >>= fun y => f y.1 y.2) = _
  rw [h]
  rfl

/-- Where two rules in a row are committed each of them is. -/
theorem commit_bind (p : Rule β) (f : β → Rule γ) :
    commit (p >>= f) = commit p >>= fun x => commit (f x) := by
  funext t
  change (p t >>= fun y => f y.1 y.2).mapError _ =
    ((p t).mapError _ >>= fun y => commit (f y.1) y.2)
  cases p t with
  | error e => rfl
  | ok y => rfl

theorem one_of_pos {test : Char → Bool} (h : test c) : one test (c :: t) = .ok (c, t) := if_pos h

theorem one_of_free {test : Char → Bool} {g : Glyph} (htest : ∀ {c}, test c → Glyph.ofChar c = g)
    (h : Free [g] t) : one test t = .error ⟨false, t, []⟩ := by
  cases t with
  | nil => rfl
  | cons c t => exact if_neg fun hc => h (List.mem_singleton.2 (htest hc))

/-- What a rule does to `t`, inside `n` atoms, agrees with what the parser does from the state `s`.
`Reached` relates what the rule finds, the characters it takes off, the state they lead to and what
is left; `Absent` relates what is left where the rule fails without being committed and what has
been added to this failure. -/
inductive Agrees {β : Type} (n : Nat) (s : Reading) (t : List Char)
    (Reached : β → List Char → Reading → List Char → Prop)
    (Absent : List Char → List Context → Prop) : Except Failure (β × List Char) → Prop
  /-- The rule finds something. -/
  | reached {x : β} {u rest : List Char} {s' : Reading} : t = u ++ rest → s.readAll u = .ok s' →
      Reached x u s' rest → Agrees n s t Reached Absent (.ok (x, rest))
  /-- There is nothing for the rule, and something else may be tried. -/
  | absent {u rest : List Char} {cs : List Context} : t = u ++ rest → (∀ c ∈ u, c ∈ blanks) →
      Absent rest cs → Agrees n s t Reached Absent (.error ⟨false, rest, cs⟩)
  /-- The failure is final, and the parser stops there. -/
  | stopped {u rest : List Char} {cs : List Context} {s' : Reading} {e : ParseError} :
      t = u ++ rest → s.readAll u = .ok s' → s'.Stops rest e →
      cs ++ operandContexts n = e.expected.contexts →
      Agrees n s t Reached Absent (.error ⟨true, rest, cs⟩)

namespace Agrees

variable {n : Nat} {R S : β → List Char → Reading → List Char → Prop}
  {T : γ → List Char → Reading → List Char → Prop} {A B : List Char → List Context → Prop}

theorem mono (hp : Agrees n s t R A (p t)) (hR : ∀ {x u s' rest}, R x u s' rest → S x u s' rest)
    (hA : ∀ {rest cs}, A rest cs → B rest cs) : Agrees n s t S B (p t) := by
  generalize p t = res at hp
  cases hp with
  | reached htext hread h => exact .reached htext hread (hR h)
  | absent htext hu h => exact .absent htext hu (hA h)
  | stopped htext hread hstops hcs => exact .stopped htext hread hstops hcs

theorem pure (h : R x [] s t) : Agrees n s t R A ((Pure.pure x : Rule β) t) :=
  .reached (u := []) rfl rfl h

/-- What agrees behind what was read agrees with it; only blanks may have been read if the rule
does not have to find anything. -/
theorem after {res : Except Failure (β × List Char)} (htext : t = u ++ rest)
    (hread : s.readAll u = .ok s')
    (hB : ∀ {rest cs}, B rest cs → (∀ c ∈ u, c ∈ blanks) ∧ A rest cs)
    (h : Agrees n s' rest (fun x v => R x (u ++ v)) B res) : Agrees n s t R A res := by
  cases h with
  | reached hrest hread' h =>
    exact .reached (by rw [htext, hrest, List.append_assoc])
      ((Reading.readAll_append hread _).trans hread') h
  | absent hrest hv h =>
    exact .absent (by rw [htext, hrest, List.append_assoc])
      (List.forall_mem_append.2 ⟨(hB h).1, hv⟩) (hB h).2
  | stopped hrest hread' hstops hcs =>
    exact .stopped (by rw [htext, hrest, List.append_assoc])
      ((Reading.readAll_append hread _).trans hread') hstops hcs

/-- **One rule after another**: the parser goes on from the state the first one leads to. -/
theorem bind (hp : Agrees n s t R A (p t)) (hf : ∀ {x u s' rest}, R x u s' rest →
      Agrees n s' rest (fun y v => T y (u ++ v)) (fun _ _ => False) (f x rest)) :
    Agrees n s t T A ((p >>= f) t) := by
  generalize hpt : p t = res at hp
  cases hp with
  | reached htext hread h =>
    rw [bind_of_ok hpt]
    exact (hf h).after htext hread False.elim
  | absent htext hu h =>
    rw [bind_of_error hpt]
    exact .absent htext hu h
  | stopped htext hread hstops hcs =>
    rw [bind_of_error hpt]
    exact .stopped htext hread hstops hcs

/-- What is found may be changed. -/
theorem map {g : β → γ} {res : Except Failure (β × List Char)}
    (h : Agrees n s t (fun x => T (g x)) A res) :
    Agrees n s t T A (res.map fun y => (g y.1, y.2)) := by
  cases h with
  | reached htext hread h => exact .reached htext hread h
  | absent htext hu h => exact .absent htext hu h
  | stopped htext hread hstops hcs => exact .stopped htext hread hstops hcs

/-- A rule may be committed where the parser stops without it. -/
theorem commit (hp : Agrees n s t R A (p t)) (hA : ∀ {rest cs}, A rest cs →
      ∃ e : ParseError, s.Stops rest e ∧ cs ++ operandContexts n = e.expected.contexts) :
    Agrees n s t R B (commit p t) := by
  rw [Rule.commit]
  generalize p t = res at hp
  cases hp with
  | reached htext hread h => exact .reached htext hread h
  | absent htext hu h =>
    obtain ⟨e, hstops, hcs⟩ := hA h
    exact .stopped htext (s.readAll_blanks hu) hstops hcs
  | stopped htext hread hstops hcs => exact .stopped htext hread hstops hcs

/-- The second alternative is tried in the same place. -/
theorem orElse (ht : Free [.blank] t) (hp : Agrees n s t R (fun rest _ => Free G rest) (p t))
    (hq : Free G t → Agrees n s t R A (q t)) : Agrees n s t R A (orElse p q t) := by
  rw [Rule.orElse]
  generalize p t = res at hp
  cases hp with
  | reached htext hread h => exact .reached htext hread h
  | @absent u rest cs htext hu h =>
    obtain rfl := eq_nil_of_blanks (List.mem_singleton.2 rfl) (htext ▸ ht) hu
    obtain rfl : t = rest := htext
    exact hq h
  | stopped htext hread hstops hcs => exact .stopped htext hread hstops hcs

/-- An atom adds its name and what it expects. -/
theorem atom {depth : Nat} (hp : Agrees (n + 1) s t R (OperandMissing depth (n + 1)) (p t)) :
    Agrees n s t R (OperandMissing depth n)
      (context (.expected Expected.operandText) (context (.label "atom") p) t) := by
  have hcontexts (cs : List Context) : cs ++ [.label "atom"] ++ [.expected Expected.operandText] ++
      operandContexts n = cs ++ operandContexts (n + 1) := by
    rw [List.append_assoc, List.append_assoc]
    rfl
  rw [context, context]
  generalize p t = res at hp
  cases hp with
  | reached htext hread h => exact .reached htext hread h
  | absent htext hu h => exact .absent htext hu ⟨h.1, (hcontexts _).trans h.2⟩
  | stopped htext hread hstops hcs => exact .stopped htext hread hstops ((hcontexts _).trans hcs)

/-- The parser reads what one round takes off, and then the others. -/
theorem manyFrom {J : List β → Reading → Prop} (hG : .blank ∈ G)
    (hp : ∀ {xs s t}, J xs s → Free G t → Agrees n s t
      (fun x u s' rest => u ≠ [] ∧ J (xs ++ [x]) s' ∧ Free G rest) (fun rest _ => Free H rest) (p t))
    {xs : List β} (hJ : J xs s) (ht : Free G t) :
    Agrees n s t (fun ys _ s' rest => J (xs ++ ys) s' ∧ Free (G ++ H) rest) (fun _ _ => False)
      (manyFrom p t) := by
  -- every round takes something off
  generalize hl : t.length = l
  induction l using Nat.strongRecOn generalizing t xs s with
  | ind l ih =>
    rw [Rule.manyFrom]
    have hpt := hp hJ ht
    generalize p t = res at hpt
    cases hpt with
    | @reached x u rest s' htext hread h =>
      obtain ⟨hu, hJ', hrest⟩ := h
      have hlt : rest.length < t.length := by
        rw [htext, List.length_append]
        exact Nat.lt_add_of_pos_left (List.length_pos_of_ne_nil hu)
      have hmany := ih rest.length (hl ▸ hlt) hJ' hrest rfl
      simp only [List.append_assoc] at hmany
      simp only [if_pos hlt]
      exact hmany.map.after htext hread False.elim
    | @absent u rest cs htext hu h =>
      obtain rfl := eq_nil_of_blanks hG (htext ▸ ht) hu
      obtain rfl : t = rest := htext
      exact .reached (u := []) rfl rfl ⟨(List.append_nil xs).symm ▸ hJ, ht.append h⟩
    | stopped htext hread hstops hcs => exact .stopped htext hread hstops hcs

/-- **A repetition keeps what every round keeps**, and ends where there is nothing for another
one. -/
theorem many {J : List β → Reading → Prop} (hG : .blank ∈ G)
    (hp : ∀ {xs s t}, J xs s → Free G t → Agrees n s t
      (fun x u s' rest => u ≠ [] ∧ J (xs ++ [x]) s' ∧ Free G rest) (fun rest _ => Free H rest) (p t))
    (hJ : J [] s) (ht : Free G t) :
    Agrees n s t (fun xs _ s' rest => J xs s' ∧ Free (G ++ H) rest) (fun _ _ => False)
      (many p t) := manyFrom hG hp hJ ht

/-- Blanks around change nothing. -/
theorem spaced {P : β → Reading → List Char → Prop}
    (hP : ∀ {x s' rest}, P x s' rest → P x s' (rest.dropWhile blanks.contains))
    (hp : ∀ {t}, Free [.blank] t →
      Agrees n s t (fun x u s' rest => u ≠ [] ∧ P x s' rest) A (p t)) :
    Agrees n s t (fun x u s' rest => u ≠ [] ∧ P x s' rest ∧ Free [.blank] rest) A
      (spaced p t) := by
  have hsplit (t : List Char) : t = t.takeWhile blanks.contains ++ t.dropWhile blanks.contains :=
    List.takeWhile_append_dropWhile.symm
  rw [Rule.spaced, bind_of_ok (x := ()) (p := skipBlanks) rfl]
  have hblanks := mem_blanks_of_mem_takeWhile (t := t)
  refine after (hsplit t) (s.readAll_blanks hblanks) (fun h => ⟨hblanks, h⟩) ?_
  refine (hp (free_dropWhile_blanks t)).bind fun {x u s' rest} h => ?_
  rw [bind_of_ok (x := ()) (p := skipBlanks) rfl]
  refine .reached (hsplit rest) (s'.readAll_blanks mem_blanks_of_mem_takeWhile) ?_
  refine ⟨?_, hP h.2, free_dropWhile_blanks rest⟩
  exact List.append_ne_nil_of_right_ne_nil _ (List.append_ne_nil_of_left_ne_nil h.1 _)

/-- One character, with which the parser moves on. -/
theorem one {test : Char → Bool} {P : Char → Reading → Prop}
    (hpos : ∀ {c}, test c → ∃ s', s.Moves c s' ∧ P c s')
    (hneg : ∀ {c}, Glyph.ofChar c ∈ G → test c) :
    Agrees n s t (fun c u s' _ => u ≠ [] ∧ P c s') (fun rest _ => Free G rest) (one test t) := by
  cases t with
  | nil => exact .absent (u := []) rfl (List.forall_mem_nil _) trivial
  | cons c t =>
    by_cases hc : test c
    · obtain ⟨s', hmove, h⟩ := hpos hc
      rw [one_of_pos hc]
      exact .reached (u := [c]) rfl (Reading.readAll_cons hmove []) ⟨List.cons_ne_nil c [], h⟩
    · rw [show Rule.one test (c :: t) = .error ⟨false, c :: t, []⟩ from if_neg hc]
      exact .absent (u := []) rfl (List.forall_mem_nil _) fun h => hc (hneg h)

/-- A character that alone plays its part. -/
theorem character {d : Char} (g : Glyph) {P : Char → Reading → Prop}
    (hg : ∀ {c}, g.Plays c → c = d) (hmove : s.Moves d s') (h : P d s') :
    Agrees n s t (fun c u s' _ => u ≠ [] ∧ P c s') (fun rest _ => Free [g] rest)
      (Rule.one (· == d) t) := by
  refine one (fun hc => ?_) fun hc =>
    beq_iff_eq.2 (hg (Glyph.ofChar_eq_iff.1 (List.mem_singleton.1 hc)))
  obtain rfl := eq_of_beq hc
  exact ⟨s', hmove, h⟩

end Agrees

end Rule

end FiniteAutomata.Regex
