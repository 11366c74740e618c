import LoxLex.Proofs.Double.Nearest
import LoxLex.Proofs.Grammar.Lexeme
import LoxLex.Proofs.Text.Decimal
import Mathlib.Data.Int.Log
import Mathlib.Data.List.DropRight
import Mathlib.Data.Rat.Floor

/-!
# Decimal numbers

What a decimal text stands for, as a rational number: `fixedPoint` of digits with a point in them,
`exactValue` with a sign and an exponent, too. `Positional` and `Scientific` are the two ways to
write a number, and `significantDigits` the digits of a number without the zeros at its ends.
Numbers of the source have neither a sign nor an exponent; they read as their `fixedPoint`
(`readsAs_decimalValue`).
-/

namespace LoxLex

namespace Grammar

open Binary64

/-- The digits in front of the point. -/
def wholePart (w : Text) : Text := w.takeWhile (· ≠ '.')

def fractionPart (w : Text) : Text := w.drop ((wholePart w).length + 1)

def fixedPoint (w : Text) : ℚ :=
  Nat.ofDigitChars 10 (wholePart w) 0 +
    Nat.ofDigitChars 10 (fractionPart w) 0 / 10 ^ (fractionPart w).length

def exponentValue : Text → ℤ
  | '-' :: w => -(Nat.ofDigitChars 10 w 0 : ℤ)
  | '+' :: w => Nat.ofDigitChars 10 w 0
  | w => Nat.ofDigitChars 10 w 0

/-- What is in front of the letter `e`. -/
def mantissa (w : Text) : Text := w.takeWhile (· ≠ 'e')

def unsignedValue (w : Text) : ℚ :=
  fixedPoint (mantissa w) * 10 ^ exponentValue (w.drop ((mantissa w).length + 1))

def exactValue : Text → ℚ
  | '-' :: w => -unsignedValue w
  | w => unsignedValue w

/-- The digits of the mantissa from the first to the last that is not zero. -/
def significantDigits (w : Text) : Text :=
  (((mantissa w).filter Char.isDigit).dropWhile (· = '0')).rdropWhile (· = '0')

/-- The power of ten that the first significant digit counts. -/
def decimalExponent (w : Text) : ℤ := Int.log 10 |exactValue w|

/-- A number that can be written with `n` significant digits. -/
def HasDigits (n : Nat) (q : ℚ) : Prop := ∃ (c : Nat) (p : ℤ), c < 10 ^ n ∧ |q| = c * 10 ^ p

def sign (negative : Bool) : Text := if negative then ['-'] else []

/-- Digits on both sides of the point. -/
def Positional (w : Text) : Prop :=
  ∃ negative whole fraction, w = sign negative ++ whole ++ '.' :: fraction ∧
    Digits whole ∧ Digits fraction

/-- One digit, more of them behind a point if there are more, and an exponent that has a sign and at
least two digits. -/
def Scientific (w : Text) : Prop :=
  ∃ negative digit fraction exponentSign exponent,
    w = sign negative ++ digit :: fraction ++ 'e' :: exponentSign :: exponent ∧ IsDigit digit ∧
    (fraction = [] ∨ ∃ tail, fraction = '.' :: tail ∧ Digits tail) ∧
    (exponentSign = '+' ∨ exponentSign = '-') ∧ Digits exponent ∧ 2 ≤ exponent.length

variable {w whole fraction rest : Text} {c : Char} {n : Nat}

theorem takeWhile_ne_append (h : c ∉ w) : (w ++ c :: rest).takeWhile (· ≠ c) = w :=
  EndsRun.takeWhile_append (fun _ hd => decide_eq_true fun e => h (e ▸ hd)) (.cons (by simp) rest)

theorem takeWhile_ne_eq_self (h : c ∉ w) : w.takeWhile (· ≠ c) = w :=
  List.takeWhile_eq_self_iff.mpr fun _ hd => decide_eq_true fun e => h (e ▸ hd)

theorem wholePart_append (h : '.' ∉ whole) : wholePart (whole ++ '.' :: fraction) = whole :=
  takeWhile_ne_append h

theorem fractionPart_append (h : '.' ∉ whole) :
    fractionPart (whole ++ '.' :: fraction) = fraction := by
  rw [fractionPart, wholePart_append h, List.drop_length_add_append, List.drop_one, List.tail_cons]

/-- The digits on both sides of the point make one number, which the point divides. -/
theorem fixedPoint_eq (w : Text) :
    fixedPoint w = Nat.ofDigitChars 10 (wholePart w ++ fractionPart w) 0 /
      10 ^ (fractionPart w).length := by
  have hboth : Nat.ofDigitChars 10 (wholePart w ++ fractionPart w) 0 =
      10 ^ (fractionPart w).length * Nat.ofDigitChars 10 (wholePart w) 0 +
        Nat.ofDigitChars 10 (fractionPart w) 0 := by
    rw [Nat.ofDigitChars_append]
    exact Nat.ofDigitChars_eq_ofDigitChars_zero
  rw [fixedPoint, hboth]
  push_cast
  rw [add_div, mul_div_cancel_left₀ _ (by positivity)]

theorem fixedPoint_append (h : '.' ∉ whole) :
    fixedPoint (whole ++ '.' :: fraction) =
      Nat.ofDigitChars 10 (whole ++ fraction) 0 / 10 ^ fraction.length := by
  rw [fixedPoint_eq, wholePart_append h, fractionPart_append h]

theorem fixedPoint_of_not_mem (h : '.' ∉ w) : fixedPoint w = Nat.ofDigitChars 10 w 0 := by
  have hwhole : wholePart w = w := takeWhile_ne_eq_self h
  have hfraction : fractionPart w = [] := by
    rw [fractionPart, hwhole, List.drop_eq_nil_of_le (Nat.le_succ _)]
  rw [fixedPoint_eq, hwhole, hfraction, List.append_nil, List.length_nil, pow_zero, div_one]

theorem readsAs_decimalValue (w : Text) : ReadsAs (fixedPoint w) (decimalValue w).bits := by
  have h := Double.readsAs_nearest (Nat.ofDigitChars 10 (wholePart w ++ fractionPart w) 0)
    (Nat.pow_pos (n := (fractionPart w).length) (show 0 < 10 by decide))
  rw [fixedPoint_eq]
  rw [Nat.cast_pow] at h
  exact h

theorem Digits.not_mem (h : Digits w) (hc : c.isDigit = false) : c ∉ w := fun hmem => by
  rw [digits_iff] at h
  rw [h.2 c hmem] at hc
  cases hc

theorem Digits.head?_append_ne (h : Digits w) (hc : c.isDigit = false) :
    (w ++ rest).head? ≠ some c := by
  rw [List.head?_append_of_ne_nil _ h.1]
  exact fun hhead => h.not_mem hc (List.mem_of_head? hhead)

/-- The digits of a number, also with zeros in front of them. -/
theorem digits_zeros_decimal (zeros n : Nat) :
    Digits (List.replicate zeros '0' ++ Text.decimal n) := by
  refine digits_iff.mpr ⟨by simp [Text.decimal_ne_nil], fun c hc => ?_⟩
  exact (List.mem_append.mp hc).elim Text.isDigit_of_mem_zeros Text.isDigit_of_mem_decimal

theorem digits_decimal (n : Nat) : Digits (Text.decimal n) := digits_zeros_decimal 0 n

/-! ## Signs and exponents -/

theorem unsignedValue_append (h : 'e' ∉ w) :
    unsignedValue (w ++ 'e' :: rest) = fixedPoint w * 10 ^ exponentValue rest := by
  have hmantissa : mantissa (w ++ 'e' :: rest) = w := takeWhile_ne_append h
  rw [unsignedValue, hmantissa, List.drop_length_add_append, List.drop_one, List.tail_cons]

theorem unsignedValue_of_not_mem (h : 'e' ∉ w) : unsignedValue w = fixedPoint w := by
  have hmantissa : mantissa w = w := takeWhile_ne_eq_self h
  rw [unsignedValue, hmantissa, List.drop_eq_nil_of_le (Nat.le_succ _)]
  simp [exponentValue]

theorem exactValue_sign (negative : Bool) (h : w.head? ≠ some '-') :
    exactValue (sign negative ++ w) = (if negative then -1 else 1) * unsignedValue w := by
  cases negative
  · rw [if_neg Bool.false_ne_true, one_mul]
    change exactValue w = unsignedValue w
    unfold exactValue
    split
    · exact absurd rfl h
    · rfl
  · rw [if_pos rfl, neg_one_mul]
    rfl

/-! ## Significant digits -/

theorem significantDigits_sign (negative : Bool) (w : Text) :
    significantDigits (sign negative ++ w) = significantDigits w := by
  cases negative
  · rfl
  · have hmantissa : mantissa ('-' :: w) = '-' :: mantissa w := List.takeWhile_cons_of_pos rfl
    change significantDigits ('-' :: w) = _
    rw [significantDigits, hmantissa, List.filter_cons_of_neg (by decide), significantDigits]

theorem significantDigits_eq {digits : Text} {a b : Nat}
    (h : (mantissa w).filter Char.isDigit =
      List.replicate a '0' ++ (digits ++ List.replicate b '0'))
    (hne : digits ≠ []) (hhead : digits.head? ≠ some '0') (hlast : digits.getLast? ≠ some '0') :
    significantDigits w = digits := by
  have hzeros (k : Nat) : ∀ c ∈ List.replicate k '0', decide (c = '0') = true := fun c hc =>
    decide_eq_true (List.eq_of_mem_replicate hc)
  have hfront : EndsRun (· = '0') (digits ++ List.replicate b '0') := by
    rw [EndsRun.eq_iff, List.head?_append_of_ne_nil _ hne]
    exact hhead
  have hback : EndsRun (· = '0') digits.reverse := by
    rw [EndsRun.eq_iff, List.head?_reverse]
    exact hlast
  rw [significantDigits, h, EndsRun.dropWhile_append (hzeros a) hfront, List.rdropWhile,
    List.reverse_append, List.reverse_replicate, EndsRun.dropWhile_append (hzeros b) hback,
    List.reverse_reverse]

/-! ## The two ways to write a number -/

theorem Positional.not_mem (h : Positional w) : 'e' ∉ w := by
  obtain ⟨negative, whole, fraction, rfl, hwhole, hfraction⟩ := h
  have hw := hwhole.not_mem (c := 'e') rfl
  have hf := hfraction.not_mem (c := 'e') rfl
  cases negative <;> simp [sign, hw, hf]

theorem Scientific.mem (h : Scientific w) : 'e' ∈ w := by
  obtain ⟨negative, digit, fraction, exponentSign, exponent, rfl, -⟩ := h
  simp

theorem Positional.not_scientific (h : Positional w) : ¬ Scientific w := fun hs =>
  h.not_mem hs.mem

end Grammar

end LoxLex
