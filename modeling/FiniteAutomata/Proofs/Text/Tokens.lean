import FiniteAutomata.Proofs.Text.Digits
import FiniteAutomata.Text.Token

/-!
# Proofs/Text/Tokens — what is written in tokens is read in tokens

A word is read as one token if no word follows it directly (`tokens?_word`), so source code can be
read piece by piece (`Reads.append`).  A text between double quotes is read as what was written there
(`reads_quoted`): a marked character, be it a code point in hexadecimal digits, is read as the
character it was written for (`textTokens?_escape`).
-/

namespace FiniteAutomata.Text

variable {rest : List Char} {tokens : List Token}

/-! ## Words -/

/-- A character that no word follows directly is a word of its own. -/
theorem glue_of_not_startsWord {c : Char} (h : startsWord rest = false) :
    glue c rest tokens = .word [c] :: tokens := by
  unfold glue
  rw [h]

/-- Any other character belongs to the word that follows. -/
theorem glue_of_startsWord {c : Char} {name : List Char} (h : startsWord rest = true) :
    glue c rest (.word name :: tokens) = .word (c :: name) :: tokens := by
  unfold glue
  rw [h]

theorem tokens?_cons_of_isWordChar {c : Char} (hc : isWordChar c) :
    tokens? (c :: rest) = (tokens? rest).map (glue c rest) := by
  have hne : ∀ {d : Char}, isWordChar d = false → c ≠ d := by
    rintro d hd rfl
    rw [hc] at hd
    cases hd
  rw [tokens?, if_pos hc]
  · exact hne (by decide)
  · exact fun _ he _ => hne (by decide) he
  · exact fun _ _ he _ => hne (by decide) he
  · exact hne (by decide)

/-- **A word is one token**, if it ends where it is cut off. -/
theorem tokens?_word : ∀ {name : List Char}, (∀ c ∈ name, isWordChar c) → name ≠ [] →
    startsWord rest = false → tokens? rest = some tokens →
      tokens? (name ++ rest) = some (.word name :: tokens)
  | [], _, hne, _, _ => absurd rfl hne
  | [c], hname, _, hrest, h => by
    rw [List.singleton_append, tokens?_cons_of_isWordChar (hname c (List.mem_cons_self ..)), h,
      Option.map_some, glue_of_not_startsWord hrest]
  | c :: d :: name, hname, _, hrest, h => by
    have hd : startsWord (d :: name ++ rest) = true := hname d (by simp)
    have hword := tokens?_word (fun e he => hname e (List.mem_cons_of_mem c he))
      (List.cons_ne_nil d name) hrest h
    rw [List.cons_append, tokens?_cons_of_isWordChar (hname c (List.mem_cons_self ..)), hword,
      Option.map_some, glue_of_startsWord hd]

/-! ## Rows of tokens -/

/-- A piece of source code is read as some tokens, whatever follows that does not go on with a
word. -/
def Reads (code : List Char) (read : List Token) : Prop :=
  ∀ rest tokens, startsWord rest = false → tokens? rest = some tokens →
    tokens? (code ++ rest) = some (read ++ tokens)

theorem reads_nil : Reads [] [] := fun _ _ _ h => h

theorem reads_word {name : List Char} (hname : name.all isWordChar) (hne : name ≠ []) :
    Reads name [.word name] :=
  fun _ _ hrest h => tokens?_word (List.all_eq_true.1 hname) hne hrest h

namespace Reads

variable {code code' : List Char} {read read' : List Token}

theorem space (h : Reads code read) : Reads (' ' :: code) read := by
  intro rest tokens hrest htokens
  rw [List.cons_append, tokens?]
  exact h rest tokens hrest htokens

theorem separator (h : Reads code read) : Reads (':' :: ':' :: code) (.separator :: read) := by
  intro rest tokens hrest htokens
  rw [List.cons_append, List.cons_append, tokens?, h rest tokens hrest htokens]
  rfl

theorem mark {c : Char} (hc : c ∈ marks) (hcolon : c ≠ ':') (h : Reads code read) :
    Reads (c :: code) (.mark c :: read) := by
  have hne : ∀ {d : Char}, d ∉ marks → c ≠ d := fun hd he => hd (he ▸ hc)
  have hword : isWordChar c = false := by
    have hmarks : marks.all (!isWordChar ·) = true := by decide
    exact Bool.not_eq_true' _ ▸ List.all_eq_true.1 hmarks c hc
  intro rest tokens hrest htokens
  rw [List.cons_append, tokens?, hword, if_neg Bool.false_ne_true, if_pos hc,
    h rest tokens hrest htokens]
  · rfl
  · exact hne (by decide)
  · exact fun _ he _ => hcolon he
  · exact fun _ _ he _ => hne (by decide) he
  · exact hne (by decide)

theorem char {c : Char} (hc : c ≠ '\'' ∧ c ≠ '\\') (h : Reads code read) :
    Reads ('\'' :: c :: '\'' :: code) (.char c :: read) := by
  intro rest tokens hrest htokens
  rw [List.cons_append, List.cons_append, List.cons_append, tokens?, if_neg (not_or.2 hc),
    h rest tokens hrest htokens]
  rfl

/-- Where the second piece does not go on with a word, it does not change the first. -/
theorem append (h : Reads code read) (h' : Reads code' read')
    (hstart : ∀ rest, startsWord rest = false → startsWord (code' ++ rest) = false) :
    Reads (code ++ code') (read ++ read') := by
  intro rest tokens hrest htokens
  rw [List.append_assoc, List.append_assoc]
  exact h _ _ (hstart rest hrest) (h' rest tokens hrest htokens)

theorem tokens?_eq (h : Reads code read) : tokens? code = some read := by
  have hall := h [] [] rfl rfl
  rwa [List.append_nil, List.append_nil] at hall

end Reads

/-! ## Texts -/

/-- The value of a digit is the number it is written for. -/
theorem digit?_digitChar : ∀ d < 16, digit? (Nat.digitChar d) = some d := by decide

variable {read : List Char}

theorem codeTokens?_digitChar {code d : Nat} (hd : d < 16) :
    codeTokens? read code (Nat.digitChar d :: rest) = codeTokens? read (16 * code + d) rest := by
  rw [codeTokens?, digit?_digitChar d hd]
  · rfl
  · exact Nat.digitChar_ne _ (by decide)

/-- **A number is read back from its digits.** -/
theorem codeTokens?_toDigits (n : Nat) :
    codeTokens? read 0 (Nat.toDigits 16 n ++ rest) = codeTokens? read n rest := by
  -- the last digit is read last, as the first character after the digits of `n / 16`
  induction n using Nat.strongRecOn generalizing rest with
  | ind n ih =>
    rw [Nat.toDigits_eq_if (by decide)]
    split
    · next hn =>
      rw [List.singleton_append, codeTokens?_digitChar hn, Nat.mul_zero, Nat.zero_add]
    · have hlast : n % 16 < 16 := Nat.mod_lt n (by decide)
      rw [List.append_assoc, ih (n / 16) (by omega), List.singleton_append,
        codeTokens?_digitChar hlast, Nat.div_add_mod]

/-- **A character is read back from between quotes.** -/
theorem textTokens?_escape (c : Char) :
    textTokens? read (escape c ++ rest) = textTokens? (c :: read) rest := by
  rw [escape]
  split
  · next hmarked =>
    rcases hmarked with rfl | rfl <;> rfl
  · next hplain =>
    split
    · next h => subst h; rfl
    split
    · next h => subst h; rfl
    split
    · next h => subst h; rfl
    split
    · next h => subst h; rfl
    split
    · have hopen : escapeCode c ++ rest =
          '\\' :: 'u' :: '\x7b' :: (Nat.toDigits 16 c.toNat ++ '\x7d' :: rest) := by
        rw [escapeCode, List.append_assoc, List.append_assoc]
        rfl
      rw [hopen, textTokens?, codeTokens?_toDigits, codeTokens?, Char.ofNat_toNat]
    · rw [List.singleton_append, textTokens?]
      · exact fun h => hplain (.inl h)
      · exact fun _ h _ => hplain (.inr h)
      · exact fun _ _ h _ => hplain (.inr h)

/-- **A text is read back from between quotes.** -/
theorem reads_quoted (text : List Char) : Reads (quoted text) [.text text] := by
  intro rest tokens _ h
  -- what is read already stands in front
  have htext : ∀ read, textTokens? read (text.flatMap escape ++ '"' :: rest) =
      some (.text (read.reverse ++ text) :: tokens) := by
    induction text with
    | nil =>
      intro read
      rw [List.flatMap_nil, List.nil_append, textTokens?, h, List.append_nil]
      rfl
    | cons c text ih =>
      intro read
      rw [List.flatMap_cons, List.append_assoc, textTokens?_escape, ih, List.reverse_cons,
        List.append_assoc]
      rfl
  rw [quoted, List.cons_append, List.cons_append, List.append_assoc, tokens?, List.singleton_append,
    htext]
  rfl

end FiniteAutomata.Text
