import LoxLex.Proofs.Double.Binary64

/-!
# Rounding to the nearest pattern

The rounding of rational numbers to patterns is the one of their magnitudes to ranks
(`rounds_of_roundsTo`, `roundsTo_of_rounds`), so `nearest` is correctly rounded over the whole range
(`readsAs_nearest`) and no two patterns of one sign are the rounding of a number
(`RoundsTo.unique`).
-/

namespace LoxLex

open Binary64

namespace Double

variable {negative : Bool} {r : Nat} {q : ℚ}

theorem abs_sub_le_add {a b : ℚ} (ha : 0 ≤ a) (hb : 0 ≤ b) : |a - b| ≤ a + b :=
  abs_sub_le_iff.mpr ⟨by linarith, by linarith⟩

theorem sign_mul_abs (hsign : q ≠ 0 → negative = decide (q < 0)) :
    (if negative then -1 else 1) * |q| = q := by
  rcases lt_trichotomy q 0 with hq | rfl | hq
  · rw [hsign hq.ne, decide_eq_true hq, if_pos rfl, abs_of_neg hq]
    ring
  · rw [abs_zero, mul_zero]
  · rw [hsign hq.ne', decide_eq_false hq.not_gt, if_neg Bool.false_ne_true, abs_of_pos hq, one_mul]

theorem abs_sub_value_bits (hsign : q ≠ 0 → negative = decide (q < 0)) (h : r ≤ infinityRank) :
    |q - value (ofRank negative r).bits| = |(|q| * unitsPerOne) - units r| / unitsPerOne := by
  have hU := unitsPerOne_pos
  have habs : |(if negative then -1 else 1 : ℚ)| = 1 := by cases negative <;> simp
  nth_rewrite 1 [← sign_mul_abs hsign]
  rw [value_bits h, ← mul_sub, abs_mul, habs, one_mul, eq_div_iff hU.ne']
  nth_rewrite 2 [← abs_of_pos hU]
  rw [← abs_mul, sub_mul, div_mul_cancel₀ _ hU.ne']

/-- A number of the other sign is as far away as both magnitudes together. -/
theorem abs_sub_value_bits_not (hsign : q ≠ 0 → negative = decide (q < 0)) (h : r ≤ infinityRank) :
    |q - value (ofRank (!negative) r).bits| = (|q| * unitsPerOne + units r) / unitsPerOne := by
  have hU := unitsPerOne_pos
  have hflip : (if !negative then -1 else 1 : ℚ) = -(if negative then -1 else 1) := by
    cases negative <;> simp
  have habs : |(if negative then -1 else 1 : ℚ)| = 1 := by cases negative <;> simp
  nth_rewrite 1 [← sign_mul_abs hsign]
  rw [value_bits h, hflip, neg_mul, sub_neg_eq_add, ← mul_add, abs_mul, habs, one_mul,
    eq_div_iff hU.ne', abs_of_nonneg (by positivity), add_mul, div_mul_cancel₀ _ hU.ne']

theorem value_bits_inj {j : Nat} (hj : j ≤ infinityRank) (hr : r ≤ infinityRank)
    (h : value (ofRank negative j).bits = value (ofRank negative r).bits) : j = r := by
  have hsign : (if negative then -1 else 1 : ℚ) ≠ 0 := by cases negative <;> simp
  rw [value_bits hj, value_bits hr, mul_right_inj' hsign,
    div_left_inj' unitsPerOne_pos.ne'] at h
  exact units_strictMono.injective (Nat.cast_injective h)

theorem rounds_of_roundsTo (hr : r < infinityRank) (h : RoundsTo q (ofRank negative r).bits) :
    Rounds (|q| * unitsPerOne) r := by
  have hsign : q ≠ 0 → negative = decide (q < 0) := by
    simpa only [isNegative_bits hr.le] using h.sign
  have hover : |q| < overflow := by
    by_contra hge
    have hinf := h.infinite (not_lt.mp hge)
    rw [isNegative_bits hr.le, infinity, bits_ofRank hr.le] at hinf
    rw [infinityRank_eq] at hr
    omega
  have hcompare (j : Nat) (hj : j < infinityRank) :
      |(|q| * unitsPerOne) - units r| ≤ |(|q| * unitsPerOne) - units j| ∧
        (|(|q| * unitsPerOne) - units r| = |(|q| * unitsPerOne) - units j| → j ≠ r → Even r) := by
    have hjfinite : IsFinite (ofRank negative j).bits := isFinite_iff.mpr ⟨negative, j, hj, rfl⟩
    have hle := h.nearest hover _ hjfinite
    have htie := h.even hover _ hjfinite
    rw [abs_sub_value_bits hsign hr.le, abs_sub_value_bits hsign hj.le] at hle htie
    refine ⟨(div_le_div_iff_of_pos_right unitsPerOne_pos).mp hle, fun heq hne => ?_⟩
    exact (even_significand_bits hr.le).mp
      (htie (by rw [heq]) fun hvalue => hne (value_bits_inj hj.le hr.le hvalue))
  refine rounds_of_nearest (by positivity) hr ?_ hcompare
  rwa [← not_le, ← overflow_le_iff, not_le]

theorem roundsTo_of_rounds (hr : r < infinityRank) (hsign : q ≠ 0 → negative = decide (q < 0))
    (h : Rounds (|q| * unitsPerOne) r) : RoundsTo q (ofRank negative r).bits where
  sign hq := by rw [isNegative_bits hr.le, hsign hq]
  infinite hover := by
    rw [overflow_le_iff, ← h.le_iff (by decide)] at hover
    omega
  finite _ := isFinite_iff.mpr ⟨negative, r, hr, rfl⟩
  nearest _ c hc := by
    obtain ⟨other, j, hj, rfl⟩ := isFinite_iff.mp hc
    have hle := (h.nearest j).1
    rw [abs_sub_value_bits hsign hr.le]
    rcases Bool.eq_or_eq_not other negative with rfl | rfl
    · rwa [abs_sub_value_bits hsign hj.le, div_le_div_iff_of_pos_right unitsPerOne_pos]
    · rw [abs_sub_value_bits_not hsign hj.le, div_le_div_iff_of_pos_right unitsPerOne_pos]
      exact hle.trans (abs_sub_le_add (by positivity) (by positivity))
  even _ c hc heq hne := by
    obtain ⟨other, j, hj, rfl⟩ := isFinite_iff.mp hc
    rw [even_significand_bits hr.le]
    rw [abs_sub_value_bits hsign hr.le] at heq
    rcases Bool.eq_or_eq_not other negative with rfl | rfl
    · rw [abs_sub_value_bits hsign hj.le, div_left_inj' unitsPerOne_pos.ne'] at heq
      exact (h.nearest j).2 heq fun hjr => hne (by rw [hjr])
    · -- A number of the other sign is as near only if the one of this sign is, too.
      rw [abs_sub_value_bits_not hsign hj.le, div_left_inj' unitsPerOne_pos.ne'] at heq
      have hle := (h.nearest j).1
      have hadd := abs_sub_le_add (a := |q| * unitsPerOne) (b := units j) (by positivity)
        (by positivity)
      by_cases hjr : j = r
      · subst hjr
        rcases Nat.eq_zero_or_pos j with rfl | hpos
        · exact Even.zero
        · have hv := h.pos hpos
          have hu : (0 : ℚ) < units j := Nat.cast_pos.mpr (units_pos hpos)
          rcases abs_cases (|q| * unitsPerOne - units j) with ⟨e, -⟩ | ⟨e, -⟩ <;> linarith
      · exact (h.nearest j).2 (le_antisymm hle (by linarith)) hjr

theorem units_eq_self (h : r ≤ 2 * binadeSize) : units r = r := by
  simpa using units_scaled (s := 0) h (.inl rfl)

/-- Among the subnormal numbers rounding is to whole units. -/
theorem Rounds.abs_sub_le {v : ℚ} (h : Rounds v r) (hv : v < binadeSize) :
    r ≤ binadeSize ∧ |v - r| ≤ 1 / 2 ∧ (|v - r| = 1 / 2 → Even r) := by
  have hr : r ≤ binadeSize := by
    by_contra hlt
    have hlow : (border (binadeSize + 1) : ℚ) ≤ 2 * v := (border_le_of_le (by omega)).trans h.low
    rw [border_succ, units_eq_self (by omega), units_eq_self (by rw [binadeSize_eq]; omega)] at hlow
    push_cast at hlow
    linarith
  have hsize : 1 < binadeSize := by decide
  have habove : (border (r + 1) : ℚ) = 2 * r + 1 := by
    rw [border_succ, units_eq_self (by omega), units_eq_self (by omega)]
    push_cast
    ring
  have hbelow : 2 * (r : ℚ) - 1 ≤ border r ∧ (2 * v = 2 * r - 1 → 2 * v = border r) := by
    rcases Nat.eq_zero_or_pos r with rfl | hpos
    · have := h.low
      rw [border_zero, Nat.cast_zero] at this ⊢
      exact ⟨by norm_num, fun _ => by linarith⟩
    · have : (border r : ℚ) = 2 * r - 1 := by
        rw [border, units_eq_self (by omega), units_eq_self (by omega)]
        push_cast [hpos]
        ring
      exact ⟨this.ge, fun hv => hv.trans this.symm⟩
  refine ⟨hr, abs_le.mpr ⟨?_, ?_⟩, fun htie => h.even ?_⟩
  · linarith [h.low, hbelow.1]
  · linarith [h.high]
  · rcases eq_or_eq_neg_of_abs_eq htie with e | e
    · exact .inr (by linarith)
    · exact .inl (hbelow.2 (by linarith))

/-! ## What a decimal number reads as -/

theorem two_zpow_unit : (2 : ℚ) ^ (-1074 : ℤ) = 1 / unitsPerOne := by
  rw [← pow_zero (2 : ℚ), ← two_zpow_sub]
  rfl

theorem two_zpow_half_unit : (2 : ℚ) ^ (-1075 : ℤ) = 1 / 2 / unitsPerOne := by
  rw [show (-1075 : ℤ) = -1074 - 1 by norm_num, zpow_sub_one₀ two_ne_zero, two_zpow_unit]
  ring

theorem two_zpow_leastNormal : (2 : ℚ) ^ (-1022 : ℤ) = binadeSize / unitsPerOne := by
  rw [show (binadeSize : ℚ) = 2 ^ 52 by rw [binadeSize_eq]; norm_num, ← two_zpow_sub]
  rfl

theorem bits_ofRank_false : (ofRank false r).bits = min r infinityRank := Nat.zero_add _

theorem roundsTo_nearest (num : Nat) {den : Nat} (hden : 0 < den) :
    RoundsTo (num / den) (nearest num den).bits := by
  have hrank := rounds_nearestRank num hden
  have hq : |(num / den : ℚ)| = num / den := abs_of_nonneg (by positivity)
  rw [nearest]
  by_cases hr : nearestRank num den < infinityRank
  · refine roundsTo_of_rounds hr (fun _ => (decide_eq_false ?_).symm) (hq.symm ▸ hrank)
    exact not_lt.mpr (by positivity)
  · have hinf : ofRank false (nearestRank num den) = ofRank false infinityRank := by
      simp only [ofRank, Nat.min_eq_right (not_lt.mp hr), Nat.min_self]
    have hover : overflow ≤ |(num / den : ℚ)| := by
      rw [overflow_le_iff, hq, ← hrank.le_iff (by decide)]
      exact not_lt.mp hr
    rw [hinf]
    exact {
      sign := fun _ => by
        rw [isNegative_bits le_rfl, decide_eq_false (not_lt.mpr (by positivity))]
      infinite := fun _ => by rw [isNegative_bits le_rfl]; decide
      finite := fun h => absurd hover (not_le.mpr h)
      nearest := fun h => absurd hover (not_le.mpr h)
      even := fun h => absurd hover (not_le.mpr h) }

end Double

namespace Binary64

open Double

variable {q v : ℚ} {b c : Nat}

/-- Of the patterns of one sign a number rounds to only one. -/
theorem RoundsTo.unique (hb : RoundsTo q b) (hc : RoundsTo q c)
    (hsign : isNegative b = isNegative c) : b = c := by
  rcases le_or_gt overflow |q| with hover | hover
  · rw [hb.infinite hover, hc.infinite hover, hsign]
  · obtain ⟨_, r, hr, rfl⟩ := isFinite_iff.mp (hb.finite hover)
    obtain ⟨_, j, hj, rfl⟩ := isFinite_iff.mp (hc.finite hover)
    rw [isNegative_bits hr.le, isNegative_bits hj.le] at hsign
    subst hsign
    rw [(rounds_of_roundsTo hr hb).unique (rounds_of_roundsTo hj hc)]

/-- `b` is what a number `v` that is not negative reads as: the pattern it rounds to, of the two
zeros the positive one. -/
structure ReadsAs (v : ℚ) (b : Nat) : Prop where
  rounded : RoundsTo v b
  /-- Neither negative nor a NaN. -/
  le_infinity : b ≤ infinity false
  infinite : b = infinity false ↔ overflow ≤ v
  zero : b = 0 ↔ v ≤ 2 ^ (-1075 : ℤ)
  /-- Below the least normal number all steps are the same. -/
  subnormal : v < 2 ^ (-1022 : ℤ) → ∃ k : Nat, value b = k * 2 ^ (-1074 : ℤ) ∧
    |v - value b| ≤ 2 ^ (-1075 : ℤ) ∧ (|v - value b| = 2 ^ (-1075 : ℤ) → Even k)

theorem ReadsAs.isNegative (h : ReadsAs v b) : isNegative b = false := by
  have hb : b ≤ 2047 * 2 ^ 52 := h.le_infinity
  exact decide_eq_false (by omega)

theorem ReadsAs.unique (hb : ReadsAs v b) (hc : ReadsAs v c) : b = c :=
  hb.rounded.unique hc.rounded (hb.isNegative.trans hc.isNegative.symm)

end Binary64

namespace Double

theorem readsAs_nearest (num : Nat) {den : Nat} (hden : 0 < den) :
    ReadsAs (num / den) (nearest num den).bits := by
  have hU := unitsPerOne_pos
  have hrank := rounds_nearestRank num hden
  have hto := roundsTo_nearest num hden
  obtain ⟨v, hv⟩ : ∃ v : ℚ, num / den = v := ⟨_, rfl⟩
  have hv0 : 0 ≤ v := hv ▸ by positivity
  have hbits : (nearest num den).bits = min (nearestRank num den) infinityRank := bits_ofRank_false
  rw [hv] at hrank hto ⊢
  refine ⟨hto, ?_, ?_, ?_, fun hsub => ?_⟩
  · rw [hbits]
    exact min_le_right _ _
  · have hover := overflow_le_iff (q := v)
    rw [abs_of_nonneg hv0, ← hrank.le_iff (by decide)] at hover
    rw [hbits, hover]
    exact min_eq_right_iff
  · have hpos : infinityRank ≠ 0 := by decide
    rw [hbits, two_zpow_half_unit, le_div_iff₀ hU, le_div_iff₀ two_pos, mul_comm _ (2 : ℚ),
      ← hrank.eq_zero_iff]
    omega
  · rw [two_zpow_leastNormal, lt_div_iff₀ hU] at hsub
    obtain ⟨hr, hle, htie⟩ := hrank.abs_sub_le hsub
    have hsize : binadeSize ≤ infinityRank := by decide
    have hvalue : value (nearest num den).bits = nearestRank num den * 2 ^ (-1074 : ℤ) := by
      rw [nearest, value_bits (hr.trans hsize), if_neg Bool.false_ne_true, units_eq_self (by omega),
        two_zpow_unit, one_mul, mul_one_div]
    have habs : |v - value (nearest num den).bits| =
        |v * unitsPerOne - nearestRank num den| / unitsPerOne := by
      have hsign : v ≠ 0 → false = decide (v < 0) := fun _ => (decide_eq_false hv0.not_gt).symm
      rw [nearest, abs_sub_value_bits hsign (hr.trans hsize), abs_of_nonneg hv0,
        units_eq_self (by omega)]
    rw [habs, two_zpow_half_unit, div_le_div_iff_of_pos_right hU, div_left_inj' hU.ne']
    exact ⟨_, hvalue, hle, htie⟩

end Double

end LoxLex
