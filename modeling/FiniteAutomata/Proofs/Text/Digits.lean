import FiniteAutomata.Label.Text

/-!
# Proofs/Text/Digits — numbers in digits

The digits of a number are digit characters (`exists_digitChar`), so none of them has a part of its
own in a quoted text, and a number can be told from its digits (`decimal_injective`).
-/

namespace FiniteAutomata.Text

/-- **The digits of a number** are those of the base. -/
theorem exists_digitChar {b : Nat} (hb : 1 < b) (n : Nat) :
    ∀ c ∈ Nat.toDigits b n, ∃ d < b, c = Nat.digitChar d := by
  induction n using Nat.strongRecOn with
  | ind n ih =>
    intro c hc
    rw [Nat.toDigits_eq_if hb] at hc
    split at hc
    · next hn => exact ⟨n, hn, List.mem_singleton.1 hc⟩
    · rcases List.mem_append.1 hc with hc | hc
      · exact ih (n / b) (Nat.div_lt_self (by omega) hb) c hc
      · exact ⟨n % b, Nat.mod_lt n (by omega), List.mem_singleton.1 hc⟩

/-- A digit is neither a double quote nor a backslash. -/
theorem ne_of_mem_toDigits {b n : Nat} (hb : 1 < b) {c : Char} (hc : c ∈ Nat.toDigits b n) :
    c ≠ '"' ∧ c ≠ '\\' := by
  obtain ⟨d, -, rfl⟩ := exists_digitChar hb n c hc
  exact ⟨Nat.digitChar_ne _ (by decide), Nat.digitChar_ne _ (by decide)⟩

/-- Only digits are in a number. -/
theorem notMem_toDigits_ten {n : Nat} {c : Char} (hc : c.isDigit = false) :
    c ∉ Nat.toDigits 10 n := by
  intro h
  have hdigit := Nat.isDigit_of_mem_toDigits (by decide) (by decide) h
  rw [hc] at hdigit
  cases hdigit

theorem toDigits_ten_injective {m n : Nat} (h : Nat.toDigits 10 m = Nat.toDigits 10 n) : m = n := by
  rw [← Nat.ofDigitChars_ten_toDigits (n := m), h, Nat.ofDigitChars_ten_toDigits]

/-- Only digits and the sign are in a whole number. -/
theorem notMem_decimal {i : Int} {c : Char} (hc : c.isDigit = false) (hsign : c ≠ '-') :
    c ∉ decimal i := by
  cases i with
  | ofNat n => exact notMem_toDigits_ten hc
  | negSucc n => exact List.not_mem_cons_of_ne_of_not_mem hsign (notMem_toDigits_ten hc)

/-- **Whole numbers in decimal digits are told apart.** -/
theorem decimal_injective {i j : Int} (h : decimal i = decimal j) : i = j := by
  have hsign : ∀ m n : Nat, Nat.toDigits 10 m ≠ '-' :: Nat.toDigits 10 (n + 1) := by
    intro m n hmn
    exact notMem_toDigits_ten (by decide) (hmn ▸ List.mem_cons_self ..)
  cases i with
  | ofNat m =>
    cases j with
    | ofNat n => exact congrArg Int.ofNat (toDigits_ten_injective h)
    | negSucc n => exact absurd h (hsign m n)
  | negSucc m =>
    cases j with
    | ofNat n => exact absurd h.symm (hsign n m)
    | negSucc n =>
      have hmn : m + 1 = n + 1 := toDigits_ten_injective (List.cons.inj h).2
      exact congrArg Int.negSucc (Nat.succ.inj hmn)

end FiniteAutomata.Text
