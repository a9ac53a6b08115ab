import FiniteAutomata.Proofs.Regex.Reading

/-!
# Proofs/Regex/Recognition — the parser reads the grammar

What has been read is spread over the levels of the state: the text of each level is made of
finished alternatives and the factors of the one under way, and an opening bracket stands between
a level and the one inside it (`Reading.Spells`).  Every move keeps this (`Reading.Spells.move`),
so a complete state derives its value.  Conversely a phrase leads the parser from every state
inside as many brackets to the same state with the value of the phrase added
(`Reading.reads_of_derives`).
-/

namespace FiniteAutomata.Regex

/-! ## The text of a state -/

/-- The factors of the alternative, inside `d` brackets, are read from `t`. -/
inductive Alternative.Spells (d : Nat) : Alternative → List Char → Prop
  | first {t : List Char} {r : Regex Char} : Derives .star d t r → Spells d ⟨none, r⟩ t
  | next {t u : List Char} {l r : Regex Char} : Derives .concat d t l → Derives .star d u r →
      Spells d ⟨some l, r⟩ (t ++ u)

/-- The finished alternatives of the level and the factors of the one under way are read from
`t`. -/
inductive Level.Spells (d : Nat) : Level → List Char → Prop
  | start : Spells d ⟨none, none⟩ []
  | bar {t : List Char} {l : Regex Char} : Derives .union d t l → Spells d ⟨some l, none⟩ (t ++ ['|'])
  | factors {before : Option (Regex Char)} {a : Alternative} {t u : List Char} :
      Spells d ⟨before, none⟩ t → a.Spells d u → Spells d ⟨before, some a⟩ (t ++ u)

/-- The levels are read from `t`, with an opening bracket before each but the outermost. -/
inductive Reading.Spells : Reading → List Char → Prop
  | outermost {level : Level} {t : List Char} : level.Spells 0 t → Spells ⟨level, []⟩ t
  | inside {level inner : Level} {outer : List Level} {t u : List Char} {o : Char} :
      Spells ⟨level, outer⟩ t → outer.length < maxNesting → o ∈ openings →
      inner.Spells (outer.length + 1) u → Spells ⟨inner, level :: outer⟩ (t ++ o :: u)

namespace Alternative.Spells

variable {d : Nat} {a : Alternative} {t : List Char}

theorem value (h : a.Spells d t) : Derives .concat d t a.value := by
  cases h with
  | first hr => exact .factor hr
  | next hl hr => exact .product hl hr

theorem star (h : a.Spells d t) : a.star.Spells d (t ++ ['*']) := by
  cases h with
  | first hr => exact .first (.starred hr)
  | next hl hr =>
    rw [List.append_assoc]
    exact .next hl (.starred hr)

end Alternative.Spells

namespace Level.Spells

variable {d : Nat} {before : Option (Regex Char)} {a : Alternative} {t : List Char}

/-- A level with an alternative under way has finished ones before it, or none. -/
theorem exists_append (h : Level.Spells d ⟨before, some a⟩ t) :
    ∃ u v, t = u ++ v ∧ Level.Spells d ⟨before, none⟩ u ∧ a.Spells d v := by
  cases h with
  | factors ht ha => exact ⟨_, _, rfl, ht, ha⟩

/-- **A level that may end derives its value.** -/
theorem close (h : Level.Spells d ⟨before, some a⟩ t) :
    Derives .union d t (Level.close ⟨before, some a⟩ a) := by
  obtain ⟨u, v, rfl, hu, ha⟩ := h.exists_append
  cases hu with
  | start => exact .alternative ha.value
  | bar hl =>
    rw [List.append_assoc]
    exact .choice hl ha.value

theorem star (h : Level.Spells d ⟨before, some a⟩ t) :
    Level.Spells d ⟨before, some a.star⟩ (t ++ ['*']) := by
  obtain ⟨u, v, rfl, hu, ha⟩ := h.exists_append
  rw [List.append_assoc]
  exact .factors hu ha.star

/-- A phrase that binds strongly enough is one more factor. -/
theorem push {level : Level} {u : List Char} {r : Regex Char} (h : level.Spells d t)
    (hr : Derives .atom d u r) : (level.push r).Spells d (t ++ u) := by
  obtain ⟨before, _ | a⟩ := level
  · exact .factors h (.first (.plain hr))
  · obtain ⟨v, w, rfl, hv, ha⟩ := h.exists_append
    rw [List.append_assoc]
    exact .factors hv (.next ha.value (.plain hr))

end Level.Spells

namespace Reading

/-- What extends the text of the innermost level extends the text of the state. -/
theorem Spells.extend {level level' : Level} {outer : List Level} {t u : List Char}
    (h : Spells ⟨level, outer⟩ t) (hlevel : ∀ v, level.Spells outer.length v →
      level'.Spells outer.length (v ++ u)) : Spells ⟨level', outer⟩ (t ++ u) := by
  cases h with
  | outermost ht => exact .outermost (hlevel _ ht)
  | inside ht hdepth ho hinner =>
    rw [List.append_assoc]
    exact .inside ht hdepth ho (hlevel _ hinner)

theorem Spells.push {s : Reading} {t u : List Char} {r : Regex Char} (h : s.Spells t)
    (hr : Derives .atom s.depth u r) : (s.push r).Spells (t ++ u) :=
  h.extend fun _ hv => hv.push hr

/-- **A move adds its character to the text of the state.** -/
theorem Spells.move {s s' : Reading} {t : List Char} {c : Char} (h : s.Spells t)
    (hmove : s.Moves c s') (hc : c ∉ blanks) : s'.Spells (t ++ [c]) := by
  cases hmove with
  | blank hblank => exact absurd hblank hc
  | emptySet => exact h.push .emptySet
  | emptyWord => exact h.push .emptyWord
  | symbol hsymbol => exact h.push (.symbol hsymbol)
  | opening ho hdepth => exact .inside h hdepth ho .start
  | star => exact h.extend fun _ hv => hv.star
  | bar => exact h.extend fun _ hv => .bar hv.close
  | closing hclosing =>
    cases h with
    | @inside _ _ _ t u o ht hdepth ho hinner =>
      have hgroup : Derives .atom _ (o :: u ++ [c]) _ := .bracketed hdepth ho hinner.close hclosing
      rw [List.append_assoc]
      exact ht.push hgroup

/-- The text read is the text of the state. -/
theorem Spells.readAll {s s' : Reading} {t u : List Char} (h : s.Spells t)
    (hread : s.readAll u = .ok s') (hu : ∀ c ∈ u, c ∉ blanks) : s'.Spells (t ++ u) := by
  induction u generalizing s t with
  | nil =>
    obtain rfl := Except.ok.inj hread
    rwa [List.append_nil]
  | cons c u ih =>
    obtain ⟨hc, hu⟩ := List.forall_mem_cons.1 hu
    obtain ⟨s₁, hmove, hread⟩ := exists_moves_of_readAll_cons hread
    have hs₁ := ih (h.move hmove hc) hread hu
    rwa [List.append_assoc] at hs₁

/-- A state that may end derives its value. -/
theorem Spells.finish {s : Reading} {t : List Char} {r : Regex Char} (h : s.Spells t)
    (hr : s.finish = .ok r) : Derives .union 0 t r := by
  obtain ⟨before, a, rfl, rfl⟩ := finish_eq_ok_iff.1 hr
  cases h with
  | outermost hlevel => exact hlevel.close

end Reading

/-- What the parser accepts is derived. -/
theorem derives_of_parse {text : String} {r : Regex Char} (h : parse text = .ok r) :
    Derives .union 0 (significant text.toList) r := by
  obtain ⟨s, hread, hr⟩ := Reading.readFrom_eq_ok_iff.1 h
  rw [← Reading.readAll_significant] at hread
  have hspells : s.Spells (significant text.toList) :=
    Reading.Spells.readAll (.outermost .start) hread fun c hc => by
      simpa using (List.mem_filter.1 hc).2
  exact hspells.finish hr

namespace Reading

/-! ## The run over a phrase -/

/-- What the parser does with a phrase, by its kind: a concatenation is read into an alternative,
and a union into a level, with nothing there yet; everything stronger is one more factor. -/
def Reads (t : List Char) (r : Regex Char) : Phrase → Reading → Prop
  | .union, s => s.level = .start →
      ∃ before a, s.readAll t = .ok { s with level := ⟨before, some a⟩ } ∧
        Level.close ⟨before, some a⟩ a = r
  | .concat, s => s.level.current = none →
      ∃ a, s.readAll t = .ok { s with level := ⟨s.level.before, some a⟩ } ∧ a.value = r
  | .star, s | .atom, s => s.readAll t = .ok (s.push r)

/-- **The parser reads every phrase**, wherever it is in as many brackets as the phrase. -/
theorem reads_of_derives {k : Phrase} {d : Nat} {t : List Char} {r : Regex Char}
    (h : Derives k d t r) {s : Reading} (hs : s.depth = d) : Reads t r k s := by
  induction h generalizing s with
  | emptySet => exact readAll_cons .emptySet []
  | emptyWord => exact readAll_cons .emptyWord []
  | symbol hc => exact readAll_cons (.symbol hc) []
  | bracketed hdepth ho _ hc ih =>
    -- behind the bracket a fresh level waits for the group
    obtain ⟨before, a, hread, rfl⟩ := ih (s := ⟨.start, s.level :: s.outer⟩) (hs ▸ rfl) rfl
    have hopen := (readAll_cons (.opening ho (hs ▸ hdepth)) _).trans hread
    exact (readAll_append hopen _).trans (readAll_cons (.closing hc) [])
  | plain _ ih => exact ih hs
  | starred _ ih => exact (readAll_append (ih hs) _).trans (readAll_cons .star [])
  | factor _ ih =>
    intro hnone
    refine ⟨_, ih hs, ?_⟩
    rw [Alternative.value, hnone]
    rfl
  | product _ _ ihl ihr =>
    intro hnone
    obtain ⟨a, hl, rfl⟩ := ihl hs hnone
    exact ⟨_, (readAll_append hl _).trans (ihr hs), rfl⟩
  | alternative _ ih =>
    intro hstart
    obtain ⟨a, hread, rfl⟩ := ih hs (hstart ▸ rfl)
    refine ⟨s.level.before, a, hread, ?_⟩
    rw [hstart]
    rfl
  | choice _ _ ihl ihr =>
    intro hstart
    obtain ⟨before, a, hl, rfl⟩ := ihl hs hstart
    obtain ⟨b, hr, rfl⟩ := ihr (s := ⟨⟨some (Level.close ⟨before, some a⟩ a), none⟩, s.outer⟩) hs rfl
    exact ⟨_, b, (readAll_append hl _).trans ((readAll_cons .bar _).trans hr), rfl⟩

end Reading

/-- What is derived is accepted. -/
theorem parse_ofList_of_derives {t : List Char} {r : Regex Char} (h : Derives .union 0 t r) :
    parse (String.ofList t) = .ok r := by
  obtain ⟨before, a, hread, hr⟩ := Reading.reads_of_derives h (s := .start) rfl rfl
  rw [parse, String.toList_ofList]
  exact Reading.readFrom_eq_ok_iff.2 ⟨_, hread, Reading.finish_eq_ok_iff.2 ⟨before, a, rfl, hr⟩⟩

/-- **The parser accepts exactly the grammar and builds its tree.** -/
theorem parse_eq_ok_iff_derives (text : String) (r : Regex Char) :
    parse text = .ok r ↔ Derives .union 0 (significant text.toList) r := by
  rw [parse, Reading.readFrom_eq_ok_iff]
  simp only [← Reading.readAll_significant _ text.toList]
  refine ⟨?_, ?_⟩
  · intro h
    obtain ⟨s, hread, hr⟩ := h
    have hblanks : ∀ c ∈ significant text.toList, c ∉ blanks := by
      intro c hc
      simpa using (List.mem_filter.1 hc).2
    have hspells : s.Spells (significant text.toList) :=
      Reading.Spells.readAll (.outermost .start) hread hblanks
    exact hspells.finish hr
  · intro h
    obtain ⟨before, a, hread, hr⟩ := Reading.reads_of_derives h (s := .start) rfl rfl
    exact ⟨_, hread, Reading.finish_eq_ok_iff.2 ⟨before, a, rfl, hr⟩⟩

end FiniteAutomata.Regex
