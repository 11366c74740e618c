import LoxLex.Double.Rounding
import LoxLex.Proofs.Double.Units
import Mathlib.Algebra.Order.Field.Rat
import Mathlib.Data.Rat.Cast.Order
import Mathlib.Tactic.Linarith
import Mathlib.Tactic.Ring
import Mathlib.Tactic.FieldSimp
import Mathlib.Tactic.Positivity

/-!
# Rounding intervals

`Rounds v r` says that `v` units round to rank `r`: they lie between the borders of `r`, and on a
border only if `r` is even. The intervals of the ranks meet no two at a time and have no gaps
(`Rounds.unique`, `rounds_nearestRank`), and they are where `r` is the nearest rank
(`Rounds.nearest`, `rounds_of_nearest`).
-/

namespace LoxLex.Double

structure Rounds (v : ℚ) (r : Nat) : Prop where
  low : border r ≤ 2 * v
  high : 2 * v ≤ border (r + 1)
  /-- The places half way between two ranks belong to the even one. -/
  even : 2 * v = border r ∨ 2 * v = border (r + 1) → Even r

variable {v w x : ℚ} {r j : Nat}

/-- Which of two places is nearer is told by the place half way between them. -/
theorem abs_sub_le_iff_of_lt {a b : ℚ} (h : a < b) : |v - a| ≤ |v - b| ↔ 2 * v ≤ a + b := by
  rw [← sq_le_sq]
  constructor <;> intro hle <;> nlinarith

theorem abs_sub_ge_iff_of_lt {a b : ℚ} (h : a < b) : |v - b| ≤ |v - a| ↔ a + b ≤ 2 * v := by
  rw [← sq_le_sq]
  constructor <;> intro hle <;> nlinarith

theorem abs_sub_eq_iff_of_lt {a b : ℚ} (h : a < b) : |v - a| = |v - b| ↔ 2 * v = a + b := by
  rw [le_antisymm_iff, abs_sub_le_iff_of_lt h, abs_sub_ge_iff_of_lt h, ← le_antisymm_iff]

theorem border_le_of_le (h : r ≤ j) : (border r : ℚ) ≤ border j :=
  Nat.cast_le.mpr (border_strictMono.monotone h)

namespace Rounds

/-- What lies between two values of a rank is a value of the rank. -/
theorem convex (hv : Rounds v r) (hw : Rounds w r) (hvx : v ≤ x) (hxw : x ≤ w) : Rounds x r where
  low := by linarith [hv.low]
  high := by linarith [hw.high]
  even
    | .inl h => hv.even (.inl (by linarith [hv.low]))
    | .inr h => hw.even (.inr (by linarith [hw.high]))

theorem not_lt (hr : Rounds v r) (hj : Rounds v j) : ¬ r < j := by
  intro hlt
  have hborder : (border (r + 1) : ℚ) ≤ border j := border_le_of_le hlt
  have hmeet : 2 * v = border (r + 1) := by linarith [hr.high, hj.low]
  have hjr : (border j : ℚ) = border (r + 1) := by linarith [hr.high, hj.low]
  obtain rfl := border_strictMono.injective (Nat.cast_injective hjr)
  have hr2 := hr.even (.inr hmeet)
  have hj2 := hj.even (.inl hmeet)
  rw [Nat.even_iff] at hr2 hj2
  omega

theorem unique (hr : Rounds v r) (hj : Rounds v j) : r = j := by
  have := hr.not_lt hj
  have := hj.not_lt hr
  omega

/-- An even rank is reached on its lower border. -/
theorem le_iff (h : Rounds v r) (hj : Even j) : j ≤ r ↔ (border j : ℚ) ≤ 2 * v := by
  refine ⟨fun hjr => (border_le_of_le hjr).trans h.low, fun hborder => ?_⟩
  by_contra hlt
  have hnext : (border (r + 1) : ℚ) ≤ border j := border_le_of_le (by omega)
  have hmeet : (border (r + 1) : ℚ) = border j := le_antisymm hnext (hborder.trans h.high)
  obtain rfl : r + 1 = j := border_strictMono.injective (Nat.cast_injective hmeet)
  have hr := h.even (.inr (le_antisymm h.high hborder))
  rw [Nat.even_iff] at hr hj
  omega

theorem eq_zero_iff (h : Rounds v r) : r = 0 ↔ 2 * v ≤ 1 := by
  constructor
  · rintro rfl
    simpa [border_one] using h.high
  · intro hv
    by_contra hr
    have hborder : (border 1 : ℚ) ≤ border r := border_le_of_le (by omega)
    rw [border_one, Nat.cast_one] at hborder
    have hmeet : (border r : ℚ) = border 1 := by
      rw [border_one, Nat.cast_one]
      linarith [h.low]
    obtain rfl : r = 1 := border_strictMono.injective (Nat.cast_injective hmeet)
    exact absurd (h.even (.inl (by linarith [h.low]))) (by decide)

theorem pos (h : Rounds v r) (hr : 0 < r) : 0 < v := by
  have hborder : ((0 : Nat) : ℚ) < border r := Nat.cast_lt.mpr (border_zero ▸ border_strictMono hr)
  rw [Nat.cast_zero] at hborder
  linarith [h.low]

/-- No rank is nearer, and one that is as near leaves the tie to an even `r`. -/
theorem nearest (h : Rounds v r) (j : Nat) :
    |v - units r| ≤ |v - units j| ∧ (|v - units r| = |v - units j| → j ≠ r → Even r) := by
  rcases Nat.lt_trichotomy j r with hlt | rfl | hgt
  · have hjr : (units j : ℚ) < units r := Nat.cast_lt.mpr (units_strictMono hlt)
    have hbelow : (units j + units r : ℚ) ≤ border r := by
      have := units_strictMono.monotone (Nat.le_sub_one_of_lt hlt)
      rw [border]
      exact_mod_cast Nat.add_le_add_right this _
    rw [abs_sub_ge_iff_of_lt hjr, eq_comm, abs_sub_eq_iff_of_lt hjr]
    refine ⟨hbelow.trans h.low, fun htie _ => h.even (.inl ?_)⟩
    exact le_antisymm (htie ▸ hbelow) h.low
  · exact ⟨le_rfl, fun _ hne => absurd rfl hne⟩
  · have hrj : (units r : ℚ) < units j := Nat.cast_lt.mpr (units_strictMono hgt)
    have habove : (border (r + 1) : ℚ) ≤ units r + units j := by
      have := units_strictMono.monotone (Nat.succ_le_of_lt hgt)
      rw [border_succ]
      exact_mod_cast Nat.add_le_add_left this _
    rw [abs_sub_le_iff_of_lt hrj, abs_sub_eq_iff_of_lt hrj]
    refine ⟨h.high.trans habove, fun htie _ => h.even (.inr ?_)⟩
    exact le_antisymm h.high (htie ▸ habove)

end Rounds

/-- Below the border of `limit` the ranks below `limit` tell what is nearest. -/
theorem rounds_of_nearest {limit : Nat} (hv : 0 ≤ v) (hr : r < limit)
    (hlimit : 2 * v < border limit)
    (h : ∀ j < limit, |v - units r| ≤ |v - units j| ∧
      (|v - units r| = |v - units j| → j ≠ r → Even r)) : Rounds v r := by
  have hlow : (border r : ℚ) ≤ 2 * v ∧ (2 * v = border r → Even r) := by
    rcases Nat.eq_zero_or_pos r with rfl | hpos
    · exact ⟨by simpa [border_zero] using hv, fun _ => Even.zero⟩
    · have hlt : (units (r - 1) : ℚ) < units r :=
        Nat.cast_lt.mpr (units_strictMono (Nat.sub_lt hpos one_pos))
      obtain ⟨hle, htie⟩ := h (r - 1) (by omega)
      rw [abs_sub_ge_iff_of_lt hlt] at hle
      rw [eq_comm, abs_sub_eq_iff_of_lt hlt] at htie
      rw [border, Nat.cast_add]
      exact ⟨hle, fun heq => htie heq (by omega)⟩
  have hhigh : 2 * v ≤ border (r + 1) ∧ (2 * v = border (r + 1) → Even r) := by
    rcases Nat.lt_or_eq_of_le (Nat.succ_le_of_lt hr) with hlt | rfl
    · have hnext : (units r : ℚ) < units (r + 1) := Nat.cast_lt.mpr (units_lt_succ r)
      obtain ⟨hle, htie⟩ := h (r + 1) hlt
      rw [abs_sub_le_iff_of_lt hnext] at hle
      rw [abs_sub_eq_iff_of_lt hnext] at htie
      rw [border_succ, Nat.cast_add]
      exact ⟨hle, fun heq => htie heq (by omega)⟩
    · exact ⟨hlimit.le, fun heq => absurd heq hlimit.ne⟩
  exact ⟨hlow.1, hhigh.1, fun hmeet => hmeet.elim hlow.2 hhigh.2⟩

/-! ## The rounded quotient -/

theorem roundQuotient_spec {n d k : Nat} (hd : 0 < d) (hk : roundQuotient n d = k) :
    2 * n ≤ 2 * (k * d) + d ∧ 2 * (k * d) ≤ 2 * n + d ∧
      (2 * n = 2 * (k * d) + d ∨ 2 * (k * d) = 2 * n + d → Even k) := by
  have hdiv : n / d * d + n % d = n := Nat.div_add_mod' n d
  have hmod : n % d < d := Nat.mod_lt n hd
  rw [Nat.even_iff]
  simp only [roundQuotient] at hk
  split at hk
  · next hlt =>
    rw [Nat.compare_eq_lt] at hlt
    rw [← hk]
    omega
  · next hgt =>
    rw [Nat.compare_eq_gt] at hgt
    rw [← hk, Nat.add_mul, Nat.one_mul]
    omega
  · next heq =>
    rw [Nat.compare_eq_eq] at heq
    rw [← hk, Nat.add_mul]
    rcases Nat.mod_two_eq_zero_or_one (n / d) with h | h <;> rw [h] <;> omega

theorem roundQuotient_eq_or (n d : Nat) :
    roundQuotient n d = n / d ∨ roundQuotient n d = n / d + 1 := by
  rw [roundQuotient]
  split <;> omega

/-- The quotient is on the grid of its binade. -/
theorem scale_spec (n d : Nat) :
    n / d < 2 ^ (53 + scale n d) ∧ (scale n d = 0 ∨ 2 ^ (52 + scale n d) ≤ n / d) := by
  have hlt : n / d < 2 ^ ((n / d).log2 + 1) := Nat.lt_log2_self
  constructor
  · refine hlt.trans_le (Nat.pow_le_pow_right two_pos ?_)
    rw [scale]
    omega
  · by_cases h : (n / d).log2 ≤ 52
    · exact .inl (by rw [scale]; omega)
    · refine .inr ?_
      have hne : n / d ≠ 0 := fun h0 => by simp [h0] at h
      rw [scale, Nat.add_sub_cancel' (by omega)]
      exact Nat.log2_self_le hne

/-- What is rounded on the grid of its binade has the rank of the grid point. -/
theorem rounds_of_grid {s k : Nat} (hk : k ≤ 2 * binadeSize) (hs : s = 0 ∨ binadeSize ≤ k)
    (hv : 0 ≤ v) (hbinade : s = 0 ∨ (binadeSize * 2 ^ s : ℚ) ≤ v)
    (hlow : (2 * k - 1) * 2 ^ s ≤ 2 * v) (hhigh : 2 * v ≤ (2 * k + 1) * 2 ^ s)
    (heven : 2 * v = (2 * k - 1) * 2 ^ s ∨ 2 * v = (2 * k + 1) * 2 ^ s → Even k) :
    Rounds v (s * binadeSize + k) := by
  have hrank (h : Even k) : Even (s * binadeSize + k) := by
    rw [Nat.even_iff] at h ⊢
    have := even_binadeSize_mul s
    omega
  have hunits : (units (s * binadeSize + k) : ℚ) = k * 2 ^ s := by
    rw [units_scaled hk hs]
    push_cast
    rfl
  have habove : (2 * k + 1 : ℚ) * 2 ^ s ≤ border (s * binadeSize + k + 1) := by
    have hnext : ((k + 1 : Nat) * 2 ^ s : ℚ) ≤ units (s * binadeSize + k + 1) := by
      exact_mod_cast succ_mul_le_units hk hs
    rw [border_succ, Nat.cast_add, hunits]
    push_cast at hnext
    linarith
  have hhigh' : 2 * v ≤ border (s * binadeSize + k + 1) := hhigh.trans habove
  have htie : 2 * v = border (s * binadeSize + k + 1) → Even (s * binadeSize + k) :=
    fun h => hrank (heven (.inr (le_antisymm hhigh (h ▸ habove))))
  rcases Nat.eq_zero_or_pos k with rfl | hpos
  · obtain rfl : s = 0 := by
      have : 0 < binadeSize := by decide
      omega
    exact ⟨by simpa [border_zero] using hv, hhigh', fun _ => by simp⟩
  by_cases hinner : s = 0 ∨ binadeSize < k
  · have hbelow : (border (s * binadeSize + k) : ℚ) = (2 * k - 1) * 2 ^ s := by
      rw [border, Nat.add_sub_assoc hpos, units_scaled (by omega) (by omega), Nat.cast_add, hunits]
      push_cast [hpos]
      ring
    refine ⟨by rwa [hbelow], hhigh', fun h => h.elim (fun h => ?_) htie⟩
    exact hrank (heven (.inl (hbelow ▸ h)))
  · -- At a power of two the border below is nearer, but the value is not below the rank at all.
    obtain rfl : k = binadeSize := by omega
    have hbelow : (border (s * binadeSize + binadeSize) : ℚ) ≤ 2 * v := by
      have hle : border (s * binadeSize + binadeSize) ≤
          2 * units (s * binadeSize + binadeSize) := by
        have := units_strictMono.monotone (Nat.sub_le (s * binadeSize + binadeSize) 1)
        rw [border]
        omega
      have hcast : (border (s * binadeSize + binadeSize) : ℚ) ≤
          2 * units (s * binadeSize + binadeSize) := by exact_mod_cast hle
      rw [hunits] at hcast
      have := hbinade.resolve_left (by omega)
      linarith
    exact ⟨hbelow, hhigh', fun _ => hrank (by rw [binadeSize_eq]; decide)⟩

theorem rounds_quotient {n den s k : Nat} (hden : 0 < den) (hbelow : n / den < 2 ^ (53 + s))
    (hbinade : s = 0 ∨ 2 ^ (52 + s) ≤ n / den) (hk : roundQuotient n (den * 2 ^ s) = k) :
    Rounds (n / den) (s * binadeSize + k) := by
  obtain ⟨D, hD⟩ : ∃ D, D = den * 2 ^ s := ⟨_, rfl⟩
  have hDpos : 0 < D := hD ▸ Nat.mul_pos hden (Nat.two_pow_pos s)
  obtain ⟨hup, hdown, htie⟩ := roundQuotient_spec hDpos (hD ▸ hk)
  have hbelow : n < 2 * binadeSize * D := by
    have := (Nat.div_lt_iff_lt_mul hden).mp hbelow
    rwa [Nat.pow_add, Nat.mul_assoc, Nat.mul_comm (2 ^ s), ← hD] at this
  have hbinade : s = 0 ∨ binadeSize * D ≤ n := hbinade.imp_right fun h => by
    have := (Nat.le_div_iff_mul_le hden).mp h
    rwa [Nat.pow_add, Nat.mul_assoc, Nat.mul_comm (2 ^ s), ← hD] at this
  have hkle : k ≤ 2 * binadeSize := by
    by_contra hlt
    have : (2 * binadeSize + 1) * D ≤ k * D := Nat.mul_le_mul_right D (by omega)
    rw [Nat.add_mul, Nat.one_mul] at this
    omega
  have hs : s = 0 ∨ binadeSize ≤ k := hbinade.imp_right fun h => by
    by_contra hlt
    have : (k + 1) * D ≤ binadeSize * D := Nat.mul_le_mul_right D (by omega)
    rw [Nat.add_mul, Nat.one_mul] at this
    omega
  -- After multiplication by `den` all comparisons are between whole numbers.
  have hdenq : (0 : ℚ) < den := by exact_mod_cast hden
  have hDq : (D : ℚ) = 2 ^ s * den := by
    rw [hD]
    push_cast
    ring
  have hn : (n / den : ℚ) * den = n := div_mul_cancel₀ _ hdenq.ne'
  have heq (a : ℚ) (h : 2 * (n / den : ℚ) = a * 2 ^ s) : 2 * n = a * D := by
    rw [hDq, ← mul_assoc, ← h, mul_assoc, hn]
  refine rounds_of_grid hkle hs (by positivity) (hbinade.imp_right fun h => ?_) ?_ ?_ fun h => ?_
  · rw [← mul_le_mul_iff_of_pos_right hdenq, hn, mul_assoc, ← hDq]
    exact_mod_cast h
  · rw [← mul_le_mul_iff_of_pos_right hdenq, mul_assoc, mul_assoc 2, hn, ← hDq]
    have : (2 * (k * D) : ℚ) ≤ 2 * n + D := by exact_mod_cast hdown
    linarith
  · rw [← mul_le_mul_iff_of_pos_right hdenq, mul_assoc, mul_assoc (2 * (k : ℚ) + 1), hn, ← hDq]
    have : (2 * n : ℚ) ≤ 2 * (k * D) + D := by exact_mod_cast hup
    linarith
  · refine htie (h.symm.imp (fun h => ?_) fun h => ?_)
    · have : (2 * n : ℚ) = 2 * (k * D) + D := by linarith [heq _ h]
      exact_mod_cast this
    · have : (2 * (k * D) : ℚ) = 2 * n + D := by linarith [heq _ h]
      exact_mod_cast this

theorem rounds_nearestRank (num : Nat) {den : Nat} (hden : 0 < den) :
    Rounds (num / den * unitsPerOne) (nearestRank num den) := by
  -- With the exponent as a variable no step tries to evaluate the power.
  obtain ⟨e, he⟩ : ∃ e, unitExponent = e := ⟨_, rfl⟩
  obtain ⟨n, hn⟩ : ∃ n, n = num * unitsPerOne := ⟨_, rfl⟩
  have hv : (num / den * unitsPerOne : ℚ) = n / den := by
    rw [hn, Nat.cast_mul, mul_div_right_comm]
  unfold unitsPerOne at hn
  rw [he] at hn
  unfold unitExponent at he
  obtain ⟨hbelow, hbinade⟩ := scale_spec n den
  rw [hv, nearestRank, he, ← hn]
  exact rounds_quotient hden hbelow hbinade rfl

end LoxLex.Double
