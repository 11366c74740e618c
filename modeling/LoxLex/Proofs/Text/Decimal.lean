import LoxLex.Text.Basic
import Mathlib.Algebra.Ring.Parity
import Mathlib.Data.List.Basic

/-!
# Decimal digits of a number

`decimal n` is never empty, it starts with a zero only if `n` is zero and ends with one only if `n`
is a multiple of ten. Its length is told by the powers of ten around `n`.
-/

namespace LoxLex.Text

variable {n : Nat} {c : Char}

theorem isDigit_of_mem_decimal (h : c ∈ decimal n) : c.isDigit = true :=
  Nat.isDigit_of_mem_toDigits (by decide) (by decide) h

theorem decimal_ne_nil (n : Nat) : decimal n ≠ [] := Nat.toDigits_ne_nil

theorem length_decimal_pos (n : Nat) : 0 < (decimal n).length := Nat.length_toDigits_pos

theorem ofDigitChars_decimal (n : Nat) : Nat.ofDigitChars 10 (decimal n) 0 = n :=
  Nat.ofDigitChars_ten_toDigits

theorem decimal_inj {m : Nat} (h : decimal m = decimal n) : m = n := by
  rw [← ofDigitChars_decimal m, h, ofDigitChars_decimal]

/-- No number but a negative one begins with a minus sign. -/
theorem decimalInt_inj {i j : ℤ} (h : decimalInt i = decimalInt j) : i = j := by
  have hminus (m n : Nat) : decimal m ≠ '-' :: decimal n := fun h => by
    have : '-'.isDigit = true := isDigit_of_mem_decimal (h ▸ List.mem_cons_self : '-' ∈ decimal m)
    cases this
  cases i with
  | ofNat m =>
    cases j with
    | ofNat n => exact congrArg Int.ofNat (decimal_inj h)
    | negSucc n => exact absurd h (hminus m (n + 1))
  | negSucc m =>
    cases j with
    | ofNat n => exact absurd h.symm (hminus n (m + 1))
    | negSucc n =>
      have hsucc : m + 1 = n + 1 := decimal_inj (List.cons.inj h).2
      exact congrArg Int.negSucc (Nat.succ.inj hsucc)

theorem decimal_eq (n : Nat) : decimal n =
    if n < 10 then [Nat.digitChar n] else decimal (n / 10) ++ [Nat.digitChar (n % 10)] :=
  Nat.toDigits_eq_if (by decide)

theorem length_decimal_le_iff {k : Nat} (hk : 0 < k) : (decimal n).length ≤ k ↔ n < 10 ^ k :=
  Nat.length_toDigits_le_iff (by decide) hk

theorem lt_pow_length_decimal (n : Nat) : n < 10 ^ (decimal n).length :=
  (length_decimal_le_iff (length_decimal_pos n)).mp le_rfl

theorem pow_length_decimal_le (hn : 0 < n) : 10 ^ ((decimal n).length - 1) ≤ n := by
  by_contra hlt
  have hlength := length_decimal_pos n
  rcases Nat.eq_zero_or_pos ((decimal n).length - 1) with h | h
  · rw [h] at hlt
    omega
  · have := (length_decimal_le_iff h).mpr (not_le.mp hlt)
    omega

theorem head?_decimal_ne (hn : 0 < n) : (decimal n).head? ≠ some '0' := by
  induction n using Nat.strongRecOn with
  | ind n ih =>
    rw [decimal_eq]
    split
    · simp
      omega
    · rw [List.head?_append_of_ne_nil _ (decimal_ne_nil _)]
      exact ih (n / 10) (by omega) (by omega)

theorem getLast?_decimal_ne (hn : n % 10 ≠ 0) : (decimal n).getLast? ≠ some '0' := by
  rw [decimal_eq]
  split
  · simp
    omega
  · simpa using hn

/-! ## Zeros -/

theorem isDigit_of_mem_zeros (h : c ∈ List.replicate n '0') : c.isDigit = true := by
  rw [List.eq_of_mem_replicate h]
  rfl

theorem ofDigitChars_zeros_append (n : Nat) (w : Text) :
    Nat.ofDigitChars 10 (List.replicate n '0' ++ w) 0 = Nat.ofDigitChars 10 w 0 := by
  rw [Nat.ofDigitChars_append, Nat.ofDigitChars_replicate_zero, Nat.mul_zero]

theorem ofDigitChars_append_zeros (w : Text) (n : Nat) :
    Nat.ofDigitChars 10 (w ++ List.replicate n '0') 0 = Nat.ofDigitChars 10 w 0 * 10 ^ n := by
  rw [Nat.ofDigitChars_append, Nat.ofDigitChars_replicate_zero, Nat.mul_comm]

end LoxLex.Text
