import FiniteAutomata.Proofs.Regex.Printing
import FiniteAutomata.Proofs.Text.Tokens
import FiniteAutomata.Regex.Evaluation
import FiniteAutomata.Regex.Expansion

/-!
# Proofs/Regex/Expansion — the source code of an expression builds it

The source code of an expression is a row of tokens (`tokens?_calls`), and every call among them
ends at its own closing parenthesis, so the code evaluates to the expression it was written for
(`evaluate?_calls`) and no two expressions share their code.
-/

namespace FiniteAutomata.Regex

open Text (Token)

/-! ## The tokens of calls -/

/-- The tokens of a constructor. -/
def nameTokens (name : String) : List Token :=
  [.separator, .word "relang".toList, .separator, .word "Regex".toList, .separator,
    .word name.toList]

/-- The tokens of a call. -/
def applied (name : String) (args : List Token) : List Token :=
  nameTokens name ++ .mark '(' :: (args ++ [.mark ')'])

/-- The tokens of the constructor calls that build an expression. -/
def callTokens : Regex Char → List Token
  | empty => nameTokens "Empty"
  | epsilon => nameTokens "Epsilon"
  | symbol c => applied "Char" [.char c]
  | concat l r => applied "concat" (callTokens l ++ .mark ',' :: callTokens r)
  | union l r => applied "union" (callTokens l ++ .mark ',' :: callTokens r)
  | star r => applied "star" (callTokens r)

section Call

variable {name : String} (hname : name.toList.all Text.isWordChar) (hne : name.toList ≠ [])

include hname hne

/-- The path to a constructor is read word by word. -/
theorem reads_constructorPath : Text.Reads (constructorPath name) (nameTokens name) := by
  have hpath : constructorPath name =
      ':' :: ':' :: ' ' :: ("relang".toList ++ ' ' :: ':' :: ':' :: ' ' ::
        ("Regex".toList ++ ' ' :: ':' :: ':' :: ' ' :: name.toList)) := by
    rw [constructorPath, String.toList_append]
    rfl
  have hlast := (Text.reads_word hname hne).space.separator.space
  have htype : Text.Reads "Regex".toList [.word "Regex".toList] :=
    Text.reads_word (by decide) (by decide)
  have hroot : Text.Reads "relang".toList [.word "relang".toList] :=
    Text.reads_word (by decide) (by decide)
  have hend := (htype.append hlast fun _ _ => rfl).space.separator.space
  rw [hpath]
  exact (hroot.append hend fun _ _ => rfl).space.separator

/-- A call with one argument. -/
theorem reads_applied {code : List Char} {tokens : List Token} (h : Text.Reads code tokens) :
    Text.Reads (constructorPath name ++ " (".toList ++ code ++ [')']) (applied name tokens) := by
  have hclose : Text.Reads [')'] [.mark ')'] := Text.reads_nil.mark (by decide) (by decide)
  have hargs : Text.Reads (' ' :: '(' :: (code ++ [')'])) (.mark '(' :: (tokens ++ [.mark ')'])) :=
    ((h.append hclose fun _ _ => rfl).mark (by decide) (by decide)).space
  have hcall := (reads_constructorPath hname hne).append hargs fun _ _ => rfl
  rw [List.append_assoc, List.append_assoc]
  exact hcall

/-- A call with two arguments. -/
theorem reads_applied_pair {code code' : List Char} {tokens tokens' : List Token}
    (h : Text.Reads code tokens) (h' : Text.Reads code' tokens') :
    Text.Reads (constructorPath name ++ " (".toList ++ code ++ " , ".toList ++ code' ++ [')'])
      (applied name (tokens ++ .mark ',' :: tokens')) := by
  have hpair : Text.Reads (code ++ (" , ".toList ++ code')) (tokens ++ .mark ',' :: tokens') :=
    h.append (h'.space.mark (by decide) (by decide)).space fun _ _ => rfl
  have hcall := reads_applied hname hne hpair
  rwa [← List.append_assoc, ← List.append_assoc] at hcall

end Call

/-- **The source code of an expression is read call by call.** -/
theorem reads_calls {r : Regex Char} (hr : ∀ c ∈ r.symbols, c ≠ '\'' ∧ c ≠ '\\') :
    Text.Reads (calls r) (callTokens r) := by
  induction r with
  | empty => exact reads_constructorPath (by decide) (by decide)
  | epsilon => exact reads_constructorPath (by decide) (by decide)
  | symbol c =>
    have hchar : Text.Reads ['\'', c, '\''] [.char c] :=
      Text.reads_nil.char (hr c (OrdSet.mem_singleton.2 rfl))
    have hcalls : calls (symbol c) =
        constructorPath "Char" ++ " (".toList ++ ['\'', c, '\''] ++ [')'] := by
      rw [calls]
      simp only [List.append_assoc]
      rfl
    rw [hcalls]
    exact reads_applied (by decide) (by decide) hchar
  | concat l r ihl ihr =>
    obtain ⟨hl, hr⟩ := OrdSet.forall_mem_union.1 hr
    exact reads_applied_pair (by decide) (by decide) (ihl hl) (ihr hr)
  | union l r ihl ihr =>
    obtain ⟨hl, hr⟩ := OrdSet.forall_mem_union.1 hr
    exact reads_applied_pair (by decide) (by decide) (ihl hl) (ihr hr)
  | star r ih => exact reads_applied (by decide) (by decide) (ih hr)

/-! ## Evaluating calls -/

variable {fuel : Nat} {name : String} {tokens rest : List Token}

/-- A constructor without arguments. -/
theorem readValue_nameTokens {r : Regex Char} (hname : construct? name.toList [] = some r)
    (hrest : ∀ ts, rest ≠ .mark '(' :: ts) :
    readValue (fuel + 1) (nameTokens name ++ rest) = some (.regex r, rest) := by
  show readValue (fuel + 1) (.separator :: .word "relang".toList :: .separator ::
    .word "Regex".toList :: .separator :: .word name.toList :: rest) = _
  rw [readValue, if_pos ⟨rfl, rfl⟩]
  · rw [hname]
    rfl
  · exact hrest

/-- A constructor with arguments. -/
theorem readValue_applied {args : List Value} {r : Regex Char}
    (hname : construct? name.toList args = some r)
    (hargs : readArguments (readValue fuel) fuel (tokens ++ .mark ')' :: rest) =
      some (args, rest)) :
    readValue (fuel + 1) (applied name tokens ++ rest) = some (.regex r, rest) := by
  have happlied : applied name tokens ++ rest = .separator :: .word "relang".toList ::
      .separator :: .word "Regex".toList :: .separator :: .word name.toList :: .mark '(' ::
      (tokens ++ .mark ')' :: rest) := by
    simp [applied, nameTokens]
  rw [happlied, readValue, if_pos ⟨rfl, rfl⟩]
  simp [hargs, hname]

/-- One argument. -/
theorem readArguments_one {read : List Token → Option (Value × List Token)} {v : Value}
    (h : read (tokens ++ .mark ')' :: rest) = some (v, .mark ')' :: rest)) :
    readArguments read (fuel + 1) (tokens ++ .mark ')' :: rest) = some ([v], rest) := by
  rw [readArguments, h]
  rfl

/-- Two arguments. -/
theorem readArguments_pair {read : List Token → Option (Value × List Token)} {v v' : Value}
    {tokens' : List Token}
    (h : read (tokens ++ .mark ',' :: (tokens' ++ .mark ')' :: rest)) =
      some (v, .mark ',' :: (tokens' ++ .mark ')' :: rest)))
    (h' : read (tokens' ++ .mark ')' :: rest) = some (v', .mark ')' :: rest)) :
    readArguments read (fuel + 2) ((tokens ++ .mark ',' :: tokens') ++ .mark ')' :: rest) =
      some ([v, v'], rest) := by
  rw [List.append_assoc, List.cons_append, readArguments, h]
  simp [readArguments_one h']

theorem length_applied : (applied name tokens).length = tokens.length + 8 := by
  simp [applied, nameTokens]

/-- **The tokens of an expression evaluate to it.** -/
theorem readValue_callTokens {r : Regex Char} (hfuel : (callTokens r).length ≤ fuel)
    (hrest : ∀ ts, rest ≠ .mark '(' :: ts) :
    readValue fuel (callTokens r ++ rest) = some (.regex r, rest) := by
  -- after an argument comes a comma or a closing parenthesis, so `rest` changes on the way down
  induction r generalizing fuel rest with
  | empty =>
    obtain ⟨k, rfl⟩ := Nat.exists_eq_add_of_le' (Nat.le_trans (by decide) hfuel : 1 ≤ fuel)
    exact readValue_nameTokens rfl hrest
  | epsilon =>
    obtain ⟨k, rfl⟩ := Nat.exists_eq_add_of_le' (Nat.le_trans (by decide) hfuel : 1 ≤ fuel)
    exact readValue_nameTokens rfl hrest
  | symbol c =>
    rw [callTokens, length_applied] at hfuel
    obtain ⟨k, rfl⟩ := Nat.exists_eq_add_of_le' (by omega : 2 ≤ fuel)
    exact readValue_applied rfl (readArguments_one rfl)
  | concat l r ihl ihr =>
    rw [callTokens, length_applied, List.length_append, List.length_cons] at hfuel
    obtain ⟨k, rfl⟩ := Nat.exists_eq_add_of_le' (by omega : 3 ≤ fuel)
    have hl : readValue (k + 2) (callTokens l ++ .mark ',' :: (callTokens r ++ .mark ')' :: rest)) =
        some (.regex l, .mark ',' :: (callTokens r ++ .mark ')' :: rest)) := ihl (by omega) (by simp)
    have hr : readValue (k + 2) (callTokens r ++ .mark ')' :: rest) =
        some (.regex r, .mark ')' :: rest) := ihr (by omega) (by simp)
    exact readValue_applied rfl (readArguments_pair hl hr)
  | union l r ihl ihr =>
    rw [callTokens, length_applied, List.length_append, List.length_cons] at hfuel
    obtain ⟨k, rfl⟩ := Nat.exists_eq_add_of_le' (by omega : 3 ≤ fuel)
    have hl : readValue (k + 2) (callTokens l ++ .mark ',' :: (callTokens r ++ .mark ')' :: rest)) =
        some (.regex l, .mark ',' :: (callTokens r ++ .mark ')' :: rest)) := ihl (by omega) (by simp)
    have hr : readValue (k + 2) (callTokens r ++ .mark ')' :: rest) =
        some (.regex r, .mark ')' :: rest) := ihr (by omega) (by simp)
    exact readValue_applied rfl (readArguments_pair hl hr)
  | star r ih =>
    rw [callTokens, length_applied] at hfuel
    obtain ⟨k, rfl⟩ := Nat.exists_eq_add_of_le' (by omega : 2 ≤ fuel)
    have hr : readValue (k + 1) (callTokens r ++ .mark ')' :: rest) =
        some (.regex r, .mark ')' :: rest) := ih (by omega) (by simp)
    exact readValue_applied rfl (readArguments_one hr)

/-- **The source code of an expression evaluates to it.** -/
theorem evaluate?_calls {r : Regex Char} (hr : ∀ c ∈ r.symbols, c ≠ '\'' ∧ c ≠ '\\') :
    evaluate? (calls r) = some r := by
  have hread : readValue (callTokens r).length (callTokens r ++ []) = some (.regex r, []) :=
    readValue_callTokens (Nat.le_refl _) (by simp)
  rw [List.append_nil] at hread
  rw [evaluate?, (reads_calls hr).tokens?_eq]
  simp [hread]

/-- It does not matter where the spaces stand. -/
example : evaluate? "::relang::Regex::star( :: relang :: Regex::Char('a') )".toList =
    some (.star (.symbol 'a')) := by decide +kernel

/-- The symbols of a parsed expression need no mark in a literal. -/
theorem evaluate?_calls_of_parse {text : String} {r : Regex Char} (h : parse text = .ok r) :
    evaluate? (calls r) = some r := by
  refine evaluate?_calls fun c hc => ?_
  have hsymbol := isSymbol_of_parse h c hc
  exact ⟨ne_of_isSymbol hsymbol (by decide), ne_of_isSymbol hsymbol (by decide)⟩

/-! ## Errors -/

/-- The tokens of an error in source code. -/
def errorTokens (message : String) : List Token :=
  [.separator, .word "core".toList, .separator, .word "compile_error".toList, .mark '!',
    .mark '\x7b', .text message.toList, .mark '\x7d']

/-- **An error is read with its message.** -/
theorem tokens?_error (message : String) :
    Text.tokens? (":: core :: compile_error ! \x7b ".toList ++ Text.quoted message.toList ++
      " \x7d".toList) = some (errorTokens message) := by
  have hclose : Text.Reads [' ', '\x7d'] [.mark '\x7d'] :=
    (Text.reads_nil.mark (by decide) (by decide)).space
  have hmessage := (Text.reads_quoted message.toList).append hclose fun _ _ => rfl
  have hbraces := (hmessage.space.mark (c := '\x7b') (by decide) (by decide)).space
  have hmark := (hbraces.mark (c := '!') (by decide) (by decide)).space
  have hname : Text.Reads "compile_error".toList [.word "compile_error".toList] :=
    Text.reads_word (by decide) (by decide)
  have hroot : Text.Reads "core".toList [.word "core".toList] :=
    Text.reads_word (by decide) (by decide)
  have hcall := (hname.append hmark fun _ _ => rfl).space.separator.space
  have hall := (hroot.append hcall fun _ _ => rfl).space.separator.tokens?_eq
  have hstart : ":: core :: compile_error ! \x7b ".toList = ':' :: ':' :: ' ' ::
      ("core".toList ++ ' ' :: ':' :: ':' :: ' ' ::
        ("compile_error".toList ++ [' ', '!', ' ', '\x7b', ' '])) := rfl
  have hend : " \x7d".toList = [' ', '\x7d'] := rfl
  rw [hstart, hend]
  simp only [List.append_assoc, List.cons_append, List.nil_append] at hall ⊢
  exact hall

/-! ## Expansions -/

/-- **What an expression literal expands to**: source code that builds what its text parses to, or
an error with the message of the parser. -/
theorem expansion_builds_parsed :
    (∀ text r, parse text = .ok r → ∃ code, evaluate? code = some r ∧
      expansion text = String.ofList ("\x7b let regex : :: relang :: Regex < char > = ".toList ++
        code ++ " ; regex \x7d".toList)) ∧
    (∀ text text' r r', parse text = .ok r → parse text' = .ok r' →
      (expansion text = expansion text' ↔ r = r')) ∧
    ∀ text e, parse text = .error e → Text.tokens? (expansion text).toList =
      some (errorTokens ("invalid regex: " ++ e.located)) := by
  have hblock : ∀ {text r}, parse text = .ok r → expansion text = String.ofList (block r) := by
    intro text r h
    rw [expansion, h]
  refine ⟨?_, ?_, ?_⟩
  · intro text r h
    exact ⟨calls r, evaluate?_calls_of_parse h, hblock h⟩
  · intro text text' r r' h h'
    rw [hblock h, hblock h']
    constructor
    · intro hequal
      have hcalls : calls r = calls r' :=
        List.append_cancel_left (List.append_cancel_right (String.ofList_injective hequal))
      have hr := evaluate?_calls_of_parse h
      rw [hcalls, evaluate?_calls_of_parse h'] at hr
      exact (Option.some.inj hr).symm
    · rintro rfl
      rfl
  · intro text e h
    rw [expansion, h, String.toList_ofList]
    exact tokens?_error _

/-- Brackets and blanks are not told; a bracket that is left open is an error. -/
theorem expansion_of_bracketed_letters :
    (parse "a (b)*" = .ok (.concat (.symbol 'a') (.star (.symbol 'b'))) ∧
      parse "[ab*]" = .ok (.concat (.symbol 'a') (.star (.symbol 'b'))) ∧
      ∃ code, evaluate? code = some (.concat (.symbol 'a') (.star (.symbol 'b'))) ∧
        expansion "a (b)*" =
          String.ofList ("\x7b let regex : :: relang :: Regex < char > = ".toList ++ code ++
            " ; regex \x7d".toList)) ∧
    expansion "a (b)*" = expansion "[ab*]" ∧
    (parse "(a" = .error ⟨none, 2, .closing 1⟩ ∧ Text.tokens? (expansion "(a").toList =
      some (errorTokens ("invalid regex: " ++ ParseError.located ⟨none, 2, .closing 1⟩))) := by
  have hspaced : parse "a (b)*" = .ok (.concat (.symbol 'a') (.star (.symbol 'b'))) := rfl
  have hbracketed : parse "[ab*]" = .ok (.concat (.symbol 'a') (.star (.symbol 'b'))) := rfl
  have hopen : parse "(a" = .error ⟨none, 2, .closing 1⟩ := rfl
  obtain ⟨hbuilt, hequal, herror⟩ := expansion_builds_parsed
  exact ⟨⟨hspaced, hbracketed, hbuilt _ _ hspaced⟩,
    (hequal _ _ _ _ hspaced hbracketed).2 rfl, hopen, herror _ _ hopen⟩

end FiniteAutomata.Regex
