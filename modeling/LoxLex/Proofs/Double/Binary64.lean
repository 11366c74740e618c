import LoxLex.Proofs.Double.Rounding

/-!
# Binary64 patterns

What a 64-bit pattern stands for and what a rational number rounds to, said from the fields of the
pattern alone: `RoundsTo q b` is rounding to nearest with ties to the even significand. The finite
patterns are those of the ranks below infinity with either sign (`isFinite_iff`), and the value of
such a pattern is the magnitude of its rank (`value_bits`).
-/

namespace LoxLex

namespace Binary64

/-- The top bit is the sign. -/
def isNegative (b : Nat) : Bool := 2 ^ 63 ≤ b

def exponentField (b : Nat) : Nat := b / 2 ^ 52 % 2 ^ 11

def fractionField (b : Nat) : Nat := b % 2 ^ 52

/-- Where the exponent field is not zero the significand has a hidden leading bit. -/
def significand (b : Nat) : Nat :=
  if exponentField b = 0 then fractionField b else 2 ^ 52 + fractionField b

/-- The power of two that the last bit of the significand is worth. Subnormal numbers share it with
the least normal ones. -/
def exponent (b : Nat) : ℤ := max 1 (exponentField b : ℤ) - 1075

def value (b : Nat) : ℚ := (if isNegative b then -1 else 1) * (significand b * 2 ^ exponent b)

/-- The exponent field of all ones is left to infinity and the NaNs. -/
def IsFinite (b : Nat) : Prop := b < 2 ^ 64 ∧ exponentField b ≠ 2 ^ 11 - 1

def infinity (negative : Bool) : Nat := (if negative then 2 ^ 63 else 0) + (2 ^ 11 - 1) * 2 ^ 52

/-- Half way between the largest finite number and `2 ^ 1024`, the number that would come next. -/
def overflow : ℚ := 2 ^ 1024 - 2 ^ 970

/-- `b` is what `q` rounds to: the finite number nearest to it, of two such numbers the one with the
even significand, and infinity from `overflow` on. Zero rounds to either zero. -/
structure RoundsTo (q : ℚ) (b : Nat) : Prop where
  sign : q ≠ 0 → isNegative b = decide (q < 0)
  infinite : overflow ≤ |q| → b = infinity (isNegative b)
  finite : |q| < overflow → IsFinite b
  nearest : |q| < overflow → ∀ c, IsFinite c → |q - value b| ≤ |q - value c|
  even : |q| < overflow → ∀ c, IsFinite c → |q - value b| = |q - value c| → value c ≠ value b →
    Even (significand b)

end Binary64

namespace Double

open Binary64

variable {negative : Bool} {r : Nat} {q : ℚ}

theorem bits_ofRank (h : r ≤ infinityRank) :
    (ofRank negative r).bits = (if negative then 2 ^ 63 else 0) + r := by
  simp only [ofRank, bits, Nat.min_eq_left h]
  rfl

theorem isNegative_bits (h : r ≤ infinityRank) :
    isNegative (ofRank negative r).bits = negative := by
  rw [infinityRank_eq] at h
  rw [isNegative, bits_ofRank (by rwa [infinityRank_eq])]
  cases negative
  · refine decide_eq_false ?_
    rw [if_neg Bool.false_ne_true]
    omega
  · exact decide_eq_true (Nat.le_add_right _ _)

theorem exponentField_bits (h : r ≤ infinityRank) :
    exponentField (ofRank negative r).bits = r / binadeSize := by
  rw [exponentField, bits_ofRank h]
  rw [infinityRank_eq] at h
  rw [binadeSize_eq]
  cases negative <;> simp <;> omega

theorem fractionField_bits (h : r ≤ infinityRank) :
    fractionField (ofRank negative r).bits = r % binadeSize := by
  rw [fractionField, bits_ofRank h, binadeSize_eq]
  cases negative
  · simp
  · simp only [if_true]
    omega

theorem even_significand_bits (h : r ≤ infinityRank) :
    Even (significand (ofRank negative r).bits) ↔ Even r := by
  rw [significand, exponentField_bits h, fractionField_bits h, Nat.even_iff, Nat.even_iff,
    binadeSize_eq]
  split <;> omega

theorem cast_unitsPerOne : (unitsPerOne : ℚ) = 2 ^ unitExponent := by
  unfold unitsPerOne
  rw [Nat.pow_eq, Nat.cast_pow, Nat.cast_ofNat]

theorem unitsPerOne_pos : (0 : ℚ) < unitsPerOne := by
  rw [cast_unitsPerOne]
  positivity

theorem two_zpow_sub (k : Nat) : (2 : ℚ) ^ (k - unitExponent : ℤ) = 2 ^ k / unitsPerOne := by
  rw [cast_unitsPerOne, zpow_sub₀ two_ne_zero, zpow_natCast, zpow_natCast]

theorem two_zpow_exponent (e : Nat) :
    (2 : ℚ) ^ (max 1 (e : ℤ) - 1075) = 2 ^ (e - 1) / unitsPerOne := by
  have : unitExponent = 1074 := rfl
  rw [← two_zpow_sub]
  congr 1
  omega

theorem value_bits (h : r ≤ infinityRank) :
    value (ofRank negative r).bits = (if negative then -1 else 1) * (units r / unitsPerOne) := by
  have hunits : units r = significand (ofRank negative r).bits * 2 ^ (r / binadeSize - 1) := by
    rw [significand, exponentField_bits h, fractionField_bits h, units]
    split
    · next he => rw [he, Nat.pow_zero, Nat.mul_one]
    · rfl
  rw [value, isNegative_bits h, exponent, exponentField_bits h, two_zpow_exponent, hunits,
    ← mul_div_assoc]
  push_cast
  rfl

theorem isFinite_iff {b : Nat} :
    IsFinite b ↔ ∃ negative r, r < infinityRank ∧ b = (ofRank negative r).bits := by
  constructor
  · rintro ⟨hb, hfield⟩
    have hr : b % 2 ^ 63 < infinityRank := by
      rw [exponentField] at hfield
      rw [infinityRank_eq]
      omega
    refine ⟨isNegative b, b % 2 ^ 63, hr, ?_⟩
    rw [bits_ofRank hr.le, isNegative]
    by_cases h : 2 ^ 63 ≤ b
    · rw [decide_eq_true h, if_pos rfl]
      omega
    · rw [decide_eq_false h, if_neg Bool.false_ne_true]
      omega
  · rintro ⟨negative, r, hr, rfl⟩
    rw [IsFinite, exponentField_bits hr.le, bits_ofRank hr.le]
    rw [infinityRank_eq] at hr
    rw [binadeSize_eq]
    cases negative <;> simp <;> omega

theorem overflow_le_iff : overflow ≤ |q| ↔ (border infinityRank : ℚ) ≤ 2 * (|q| * unitsPerOne) := by
  have hpow (k : Nat) : (2 : ℚ) ^ (k + unitExponent + 1) = 2 ^ k * (unitsPerOne * 2) := by
    rw [pow_succ, pow_add, cast_unitsPerOne, mul_assoc]
  have hborder : (border infinityRank : ℚ) = overflow * (unitsPerOne * 2) := by
    have h : (border infinityRank + 2 ^ (970 + unitExponent + 1) : ℚ) =
        2 ^ (1024 + unitExponent + 1) := by exact_mod_cast border_infinityRank
    rw [overflow, sub_mul, ← hpow 1024, ← hpow 970, ← h, add_sub_cancel_right]
  have hpos : (0 : ℚ) < unitsPerOne * 2 := by linarith [unitsPerOne_pos]
  rw [hborder, mul_comm 2, mul_assoc, mul_le_mul_iff_of_pos_right hpos]

end Double

end LoxLex
