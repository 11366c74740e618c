import LoxLex.Double.Basic
import Mathlib.Algebra.Ring.Parity
import Mathlib.Order.Monotone.Basic

/-!
# Magnitudes in units

A rank is `s * binadeSize + k` where the spacing has doubled `s` times, and its magnitude is then
`k * 2 ^ s` units, also for the `k` that ends the binade (`units_scaled`). So magnitudes increase
with their ranks. `border r` is twice the place half way between rank `r` and the one below it.
-/

namespace LoxLex.Double

variable {r s k : Nat}

/-- A unit is `2 ^ -unitExponent`. -/
def unitExponent : Nat := 1074

@[irreducible]
def unitsPerOne : Nat := Nat.pow 2 unitExponent

theorem binadeSize_eq : binadeSize = 4503599627370496 := by decide

theorem infinityRank_eq : infinityRank = 9218868437227405312 := by decide

theorem even_binadeSize_mul (s : Nat) : s * binadeSize % 2 = 0 := by
  rw [binadeSize_eq]
  omega

theorem units_scaled (hk : k ≤ 2 * binadeSize) (hs : s = 0 ∨ binadeSize ≤ k) :
    units (s * binadeSize + k) = k * 2 ^ s := by
  have hpos : 0 < binadeSize := by decide
  simp only [units, Nat.add_comm (s * binadeSize) k, Nat.add_mul_div_right _ _ hpos,
    Nat.add_mul_mod_self_right, Nat.pow_eq]
  rcases Nat.lt_or_ge k binadeSize with hlow | hlow
  · -- Only the first binade has numbers below `binadeSize`.
    obtain rfl : s = 0 := by omega
    simp [Nat.div_eq_of_lt hlow, Nat.mod_eq_of_lt hlow]
  · obtain ⟨j, rfl⟩ := Nat.exists_eq_add_of_le hlow
    rcases Nat.lt_or_ge j binadeSize with hj | hj
    · rw [Nat.add_div_left _ hpos, Nat.div_eq_of_lt hj, Nat.add_mod_left, Nat.mod_eq_of_lt hj,
        if_neg (by omega)]
      congr 2
      omega
    · obtain rfl : j = binadeSize := by omega
      rw [Nat.add_div_left _ hpos, Nat.div_self hpos, Nat.add_mod_left, Nat.mod_self,
        if_neg (by omega), Nat.add_zero, show 0 + 1 + 1 + s - 1 = s + 1 by omega, Nat.pow_succ,
        ← Nat.mul_assoc, Nat.mul_two, Nat.add_mul]

theorem exists_scaled (r : Nat) :
    ∃ s k, r = s * binadeSize + k ∧ k < 2 * binadeSize ∧ (s = 0 ∨ binadeSize ≤ k) := by
  refine ⟨r / binadeSize - 1, r - (r / binadeSize - 1) * binadeSize, ?_⟩
  rw [binadeSize_eq]
  omega

theorem units_lt_succ (r : Nat) : units r < units (r + 1) := by
  obtain ⟨s, k, rfl, hk, hs⟩ := exists_scaled r
  rw [Nat.add_assoc, units_scaled (by omega) hs, units_scaled (by omega) (by omega)]
  exact Nat.mul_lt_mul_of_pos_right (Nat.lt_succ_self k) (Nat.two_pow_pos s)

theorem units_strictMono : StrictMono units := strictMono_nat_of_lt_succ units_lt_succ

theorem units_zero : units 0 = 0 := by decide

theorem units_pos (h : 0 < r) : 0 < units r := by
  have := units_strictMono h
  rwa [units_zero] at this

/-- The next magnitude is at least one step away, and two behind the end of a binade. -/
theorem succ_mul_le_units (hk : k ≤ 2 * binadeSize) (hs : s = 0 ∨ binadeSize ≤ k) :
    (k + 1) * 2 ^ s ≤ units (s * binadeSize + k + 1) := by
  rcases Nat.lt_or_ge k (2 * binadeSize) with hlt | hge
  · rw [Nat.add_assoc, units_scaled (by omega) (by omega)]
  · obtain rfl : k = 2 * binadeSize := by omega
    have hsplit : s * binadeSize + 2 * binadeSize + 1 =
        (s + 1) * binadeSize + (binadeSize + 1) := by
      rw [Nat.add_mul]
      omega
    rw [hsplit, units_scaled (by rw [binadeSize_eq]; omega) (by omega), Nat.pow_succ']
    calc (2 * binadeSize + 1) * 2 ^ s ≤ (2 * (binadeSize + 1)) * 2 ^ s :=
          Nat.mul_le_mul_right _ (by omega)
      _ = (binadeSize + 1) * (2 * 2 ^ s) := by
          rw [Nat.mul_comm 2, Nat.mul_assoc]

/-- Twice the place half way between rank `r` and the one below it; nothing is below rank zero. -/
def border (r : Nat) : Nat := units (r - 1) + units r

theorem border_succ (r : Nat) : border (r + 1) = units r + units (r + 1) := rfl

theorem border_strictMono : StrictMono border := by
  refine strictMono_nat_of_lt_succ fun r => ?_
  have hbelow : units (r - 1) ≤ units r := units_strictMono.monotone (Nat.sub_le r 1)
  have habove := units_lt_succ r
  rw [border_succ, border]
  omega

theorem border_zero : border 0 = 0 := by decide

theorem border_one : border 1 = 1 := by decide

theorem border_infinityRank :
    border infinityRank + 2 ^ (970 + unitExponent + 1) = 2 ^ (1024 + unitExponent + 1) := by
  decide +kernel

end LoxLex.Double
