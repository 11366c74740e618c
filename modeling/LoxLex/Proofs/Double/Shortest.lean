import LoxLex.Double.Shortest
import LoxLex.Proofs.Double.Binary64
import LoxLex.Proofs.Text.Decimal

/-!
# Shortest digits

`shortest r` has the fewest digits of all decimals that round to rank `r` and is the nearest of
those (`shortest_spec`). A `Neighbourhood` is an interval around its value, and `coarsest` finds the
coarsest grid that meets it with the grid point nearest to the value (`coarsest_spec`). All that a
decimal can do better is then excluded by one place, the least number with as many digits on that
grid: either the interval would meet a coarser grid there, or it lies between the value and any
number on a finer grid with no more digits.
-/

namespace LoxLex.Double

namespace Neighbourhood

variable {n : Neighbourhood} {x y z : ℚ} {m c p k : Nat}

/-- The interval with all the numbers in it, not only the whole ones. -/
def Holds (n : Neighbourhood) (y : ℚ) : Prop :=
  if n.closed then n.twiceLow ≤ 2 * y ∧ 2 * y ≤ n.twiceHigh
  else n.twiceLow < 2 * y ∧ 2 * y < n.twiceHigh

theorem contains_iff {x : Nat} : n.contains x = true ↔ n.Holds x := by
  unfold contains Holds
  split <;> rw [Bool.and_eq_true, decide_eq_true_iff, decide_eq_true_iff] <;> norm_cast

theorem Holds.convex (hx : n.Holds x) (hz : n.Holds z) (hxy : x ≤ y) (hyz : y ≤ z) :
    n.Holds y := by
  unfold Holds at *
  split at hx
  · next hc =>
    rw [if_pos hc] at hz ⊢
    exact ⟨by linarith [hx.1], by linarith [hz.2]⟩
  · next hc =>
    rw [if_neg hc] at hz ⊢
    exact ⟨by linarith [hx.1], by linarith [hz.2]⟩

/-! ## Grids -/

/-- The value lies between two neighbours on the grid. -/
theorem value_between (n : Neighbourhood) (p : Nat) :
    (n.value / 10 ^ p : Nat) * (10 : ℚ) ^ p ≤ n.value ∧
      n.value < (n.value / 10 ^ p + 1 : Nat) * (10 : ℚ) ^ p := by
  have hpos : 0 < 10 ^ p := Nat.pow_pos (by decide)
  have hlow : n.value / 10 ^ p * 10 ^ p ≤ n.value := Nat.div_mul_le_self _ _
  have hhigh : n.value < (n.value / 10 ^ p + 1) * 10 ^ p := by
    rw [Nat.mul_comm]
    exact Nat.lt_mul_div_succ _ hpos
  exact ⟨by exact_mod_cast hlow, by exact_mod_cast hhigh⟩

/-- One of the two neighbours does as well as any point on the grid. -/
theorem Holds.neighbour (hv : n.Holds n.value) (hk : n.Holds (k * 10 ^ p)) :
    ∃ j, (j = n.value / 10 ^ p ∨ j = n.value / 10 ^ p + 1) ∧ n.Holds (j * 10 ^ p) ∧
      |(n.value : ℚ) - j * 10 ^ p| ≤ |(n.value : ℚ) - k * 10 ^ p| := by
  obtain ⟨hlow, hhigh⟩ := n.value_between p
  have hpos : (0 : ℚ) < 10 ^ p := by positivity
  rcases Nat.lt_or_ge (n.value / 10 ^ p) k with hgt | hle
  · have hj : ((n.value / 10 ^ p + 1 : Nat) : ℚ) * 10 ^ p ≤ k * 10 ^ p :=
      mul_le_mul_of_nonneg_right (Nat.cast_le.mpr hgt) hpos.le
    refine ⟨_, .inr rfl, hv.convex hk hhigh.le hj, ?_⟩
    rw [abs_sub_comm, abs_sub_comm (n.value : ℚ), abs_of_nonneg (by linarith),
      abs_of_nonneg (by linarith)]
    linarith
  · have hj : (k : ℚ) * 10 ^ p ≤ (n.value / 10 ^ p : Nat) * 10 ^ p :=
      mul_le_mul_of_nonneg_right (Nat.cast_le.mpr hle) hpos.le
    refine ⟨_, .inl rfl, hk.convex hv hj hlow, ?_⟩
    rw [abs_of_nonneg (by linarith), abs_of_nonneg (by linarith)]
    linarith

/-- No point on the grid is nearer to the value than the rounded quotient. -/
theorem roundQuotient_nearest (n : Neighbourhood) (p k : Nat)
    (hk : k = n.value / 10 ^ p ∨ k = n.value / 10 ^ p + 1) :
    |(n.value : ℚ) - roundQuotient n.value (10 ^ p) * 10 ^ p| ≤ |(n.value : ℚ) - k * 10 ^ p| := by
  obtain ⟨hup, hdown, -⟩ := roundQuotient_spec (d := 10 ^ p) (Nat.pow_pos (by decide)) rfl
  have hup : (2 * n.value : ℚ) ≤ 2 * (roundQuotient n.value (10 ^ p) * 10 ^ p) + 10 ^ p := by
    exact_mod_cast hup
  have hdown : (2 * (roundQuotient n.value (10 ^ p) * 10 ^ p) : ℚ) ≤ 2 * n.value + 10 ^ p := by
    exact_mod_cast hdown
  have hstep : (n.value / 10 ^ p : Nat) * (10 : ℚ) ^ p < (n.value / 10 ^ p + 1 : Nat) * 10 ^ p := by
    push_cast
    linarith [pow_pos (show (0 : ℚ) < 10 by norm_num) p]
  rcases roundQuotient_eq_or n.value (10 ^ p) with e | e <;> rw [e] at hup hdown ⊢ <;>
    rcases hk with rfl | rfl
  · exact le_rfl
  · rw [abs_sub_le_iff_of_lt hstep]
    push_cast
    linarith
  · rw [abs_sub_ge_iff_of_lt hstep]
    push_cast at hdown ⊢
    linarith
  · exact le_rfl

/-- `c` is a point of the interval on the grid of `10 ^ p`, and none there is nearer to the
value. -/
structure Nearest (n : Neighbourhood) (p c : Nat) : Prop where
  holds : n.Holds (c * 10 ^ p)
  le : ∀ k : Nat, n.Holds (k * 10 ^ p) →
    |(n.value : ℚ) - c * 10 ^ p| ≤ |(n.value : ℚ) - k * 10 ^ p|

theorem onGrid_spec (hv : n.Holds n.value) (p : Nat) :
    match n.onGrid p with
    | some c => n.Nearest p c
    | none => ∀ k : Nat, ¬ n.Holds (k * 10 ^ p) := by
  have hbelow : n.contains (n.value / 10 ^ p * 10 ^ p) = true ↔
      n.Holds ((n.value / 10 ^ p : Nat) * 10 ^ p) := by
    rw [contains_iff]
    norm_cast
  have habove : n.contains ((n.value / 10 ^ p + 1) * 10 ^ p) = true ↔
      n.Holds ((n.value / 10 ^ p + 1 : Nat) * 10 ^ p) := by
    rw [contains_iff]
    norm_cast
  simp only [onGrid, Nat.pow_eq]
  cases hb : n.contains (n.value / 10 ^ p * 10 ^ p) <;>
    cases ha : n.contains ((n.value / 10 ^ p + 1) * 10 ^ p) <;>
    simp only [← Bool.not_eq_true, hbelow, habove] at hb ha
  · intro k hk
    obtain ⟨j, rfl | rfl, hj, -⟩ := hv.neighbour hk
    · exact hb hj
    · exact ha hj
  · refine ⟨ha, fun k hk => ?_⟩
    obtain ⟨j, rfl | rfl, hj, hle⟩ := hv.neighbour hk
    · exact absurd hj hb
    · exact hle
  · refine ⟨hb, fun k hk => ?_⟩
    obtain ⟨j, rfl | rfl, hj, hle⟩ := hv.neighbour hk
    · exact hle
    · exact absurd hj ha
  · refine ⟨?_, fun k hk => ?_⟩
    · rcases roundQuotient_eq_or n.value (10 ^ p) with e | e <;> rwa [e]
    · obtain ⟨j, hj, -, hle⟩ := hv.neighbour hk
      exact (n.roundQuotient_nearest p j hj).trans hle

/-- From the grid of `10 ^ m` down, that of `10 ^ p` is the first to meet the interval. -/
structure Coarsest (n : Neighbourhood) (m c p : Nat) : Prop where
  le : p ≤ m
  nearest : n.Nearest p c
  coarser : ∀ z, p < z → z ≤ m → ∀ k : Nat, ¬ n.Holds (k * 10 ^ z)

theorem coarsest_spec (hv : n.Holds n.value) (m : Nat) :
    n.Coarsest m (n.coarsest m).1 (n.coarsest m).2 := by
  induction m with
  | zero =>
    have hzero : n.Nearest 0 n.value := ⟨by simpa using hv, fun k _ => by simp⟩
    exact ⟨le_rfl, hzero, fun z hz hz0 => absurd hz (not_lt.mpr hz0)⟩
  | succ m ih =>
    have hgrid := onGrid_spec hv (m + 1)
    cases hc : n.onGrid (m + 1) with
    | some c =>
      rw [hc] at hgrid
      rw [coarsest, hc]
      exact ⟨le_rfl, hgrid, fun z hz hzm => absurd hzm (not_le.mpr hz)⟩
    | none =>
      rw [hc] at hgrid
      rw [coarsest, hc]
      refine ⟨ih.le.trans (Nat.le_succ m), ih.nearest, fun z hz hzm => ?_⟩
      rcases Nat.le_succ_iff.mp hzm with hzm | rfl
      · exact ih.coarser z hz hzm
      · exact hgrid

/-! ## Other decimals -/

/-- An interval of positive numbers around a value of `m + 1` digits. -/
structure Proper (n : Neighbourhood) (m : Nat) : Prop where
  holds : n.Holds n.value
  pos : 0 < n.twiceLow
  low : 10 ^ m ≤ n.value
  high : n.value < 10 ^ (m + 1)

theorem Proper.pos_of_holds (hn : n.Proper m) (hy : n.Holds y) : 0 < y := by
  have hlow : (0 : ℚ) < n.twiceLow := Nat.cast_pos.mpr hn.pos
  unfold Holds at hy
  split at hy <;> linarith [hy.1]

theorem mul_zpow_le {j : Nat} {e z : ℤ} (hk : k < 10 ^ j) (hz : j + z ≤ e) :
    (k * 10 ^ z : ℚ) ≤ 10 ^ e := by
  have hk : (k : ℚ) ≤ 10 ^ j := by exact_mod_cast hk.le
  calc (k * 10 ^ z : ℚ) ≤ 10 ^ j * 10 ^ z :=
        mul_le_mul_of_nonneg_right hk (zpow_pos (by norm_num) z).le
    _ = 10 ^ (j + z) := by rw [zpow_add₀ (by norm_num), zpow_natCast]
    _ ≤ 10 ^ e := zpow_le_zpow_right₀ (by norm_num) hz

/-- A number with a larger exponent is on the grid, too. -/
theorem exists_on_grid {z : ℤ} (hz : (p : ℤ) ≤ z) :
    ∃ j : Nat, (k * 10 ^ z : ℚ) = j * 10 ^ p := by
  obtain ⟨t, rfl⟩ : ∃ t : Nat, z = p + t := ⟨(z - p).toNat, by omega⟩
  refine ⟨k * 10 ^ t, ?_⟩
  rw [zpow_add₀ (by norm_num), zpow_natCast, zpow_natCast]
  push_cast
  ring

namespace Coarsest

variable {d j : Nat} {e : ℤ}

theorem pos (h : n.Coarsest m c p) (hn : n.Proper m) : 0 < c := by
  have hpos := hn.pos_of_holds h.nearest.holds
  rcases Nat.eq_zero_or_pos c with rfl | hc
  · simp at hpos
  · exact hc

/-- Where already the first grid meets the interval, one digit is enough. -/
theorem le_ten (h : n.Coarsest m c m) (hn : n.Proper m) : c ≤ 10 := by
  by_contra hc
  have hpos : (0 : ℚ) < 10 ^ m := by positivity
  have hhigh : (n.value : ℚ) < 10 * 10 ^ m := by
    have := hn.high
    rw [Nat.pow_succ'] at this
    exact_mod_cast this
  have hten : 10 * (10 : ℚ) ^ m < c * 10 ^ m :=
    mul_lt_mul_of_pos_right (by exact_mod_cast not_le.mp hc) hpos
  have hle := h.nearest.le 10 (hn.holds.convex h.nearest.holds
    (by exact_mod_cast hhigh.le) (by exact_mod_cast hten.le))
  rw [abs_sub_comm, abs_sub_comm (n.value : ℚ), abs_of_nonneg (by linarith)] at hle
  push_cast at hle
  rw [abs_of_nonneg (by linarith)] at hle
  linarith

/-- The least number with `d + 1` digits on the grid is on a coarser one if there are more digits
than one. -/
theorem not_holds_least (h : n.Coarsest m c p) (hp : p < m) (hd : 0 < d) :
    ¬ n.Holds (10 ^ (d + p)) := by
  have := h.coarser (p + 1) (Nat.lt_succ_self p) hp (10 ^ (d - 1))
  rwa [Nat.cast_pow, Nat.cast_ofNat, ← pow_add, show d - 1 + (p + 1) = d + p by omega] at this

theorem least_le (hlow : 10 ^ d ≤ c) : (10 : ℚ) ^ (d + p) ≤ c * 10 ^ p := by
  rw [pow_add]
  exact mul_le_mul_of_nonneg_right (by exact_mod_cast hlow) (by positivity)

/-- A number of at most `d` digits is too coarse, or the least number of `d + 1` digits comes
between it and the chosen one. -/
theorem lt_digits (h : n.Coarsest m c p) (hn : n.Proper m) (hfirst : 0 < d → p < m)
    (hlow : 10 ^ d ≤ c) (hk : k < 10 ^ j) (hq : n.Holds (k * 10 ^ e)) : d < j := by
  by_contra hdj
  have hj : j ≠ 0 := by
    rintro rfl
    obtain rfl : k = 0 := by omega
    simpa using hn.pos_of_holds hq
  have hd : 0 < d := by omega
  rcases lt_or_ge (p : ℤ) e with hlt | hge
  · obtain ⟨i, hi⟩ := exists_on_grid (k := k) (p := p + 1) (z := e) (by omega)
    exact h.coarser (p + 1) (Nat.lt_succ_self p) (hfirst hd) i (hi ▸ hq)
  · have hbelow : (k * 10 ^ e : ℚ) ≤ 10 ^ (d + p) := by
      rw [← zpow_natCast]
      exact mul_zpow_le hk (by push_cast; omega)
    exact h.not_holds_least (hfirst hd) hd (hq.convex h.nearest.holds hbelow (least_le hlow))

/-- A number of `d + 1` digits is on the grid, or the least such number comes between it and the
value. -/
theorem abs_sub_le (h : n.Coarsest m c p) (hn : n.Proper m) (hfirst : 0 < d → p < m)
    (hlow : 10 ^ d ≤ c) (hk : k < 10 ^ (d + 1)) (hq : n.Holds (k * 10 ^ e)) :
    |(n.value : ℚ) - c * 10 ^ p| ≤ |(n.value : ℚ) - k * 10 ^ e| := by
  rcases le_or_gt (p : ℤ) e with hge | hlt
  · obtain ⟨i, hi⟩ := exists_on_grid (k := k) hge
    rw [hi] at hq ⊢
    exact h.nearest.le i hq
  have hbelow : (k * 10 ^ e : ℚ) ≤ 10 ^ (d + p) := by
    rw [← zpow_natCast]
    exact mul_zpow_le hk (by push_cast; omega)
  have hleast : (10 : ℚ) ^ (d + p) ≤ n.value := by
    by_contra hgt
    have hd : 0 < d := Nat.pos_of_ne_zero fun hd => by
      have : (10 : ℚ) ^ p ≤ n.value := by
        exact_mod_cast (Nat.pow_le_pow_right (by decide) h.le).trans hn.low
      rw [hd, Nat.zero_add] at hgt
      exact hgt this
    exact h.not_holds_least (hfirst hd) hd
      (hn.holds.convex h.nearest.holds (not_le.mp hgt).le (least_le hlow))
  have hgrid : (10 : ℚ) ^ (d + p) = (10 ^ d : Nat) * 10 ^ p := by
    push_cast
    rw [pow_add]
  have hle := h.nearest.le (10 ^ d) (hgrid ▸ hq.convex hn.holds hbelow hleast)
  rw [← hgrid, abs_of_nonneg (by linarith : (0 : ℚ) ≤ n.value - 10 ^ (d + p))] at hle
  exact hle.trans (le_abs.mpr (.inl (by linarith)))

end Coarsest

end Neighbourhood

theorem stripZeros_spec {c : Nat} (p : Nat) (hc : 0 < c) :
    ∃ t, (stripZeros c p).2 = p + t ∧ c = (stripZeros c p).1 * 10 ^ t ∧
      (stripZeros c p).1 % 10 ≠ 0 := by
  fun_induction stripZeros c p with
  | case1 c p h ih =>
    obtain ⟨t, hp, hc, hmod⟩ := ih (by omega)
    refine ⟨t + 1, by omega, ?_, hmod⟩
    rw [Nat.pow_succ, ← Nat.mul_assoc, ← hc]
    omega
  | case2 c p h => exact ⟨0, rfl, by simp, by simp only at *; omega⟩

namespace Neighbourhood

/-- The digits are those of the grid point without the zeros at its end. -/
theorem shortest_eq {n : Neighbourhood} {c p : Nat}
    (h : n.coarsest ((Text.decimal n.value).length - 1) = (c, p)) :
    n.shortest = ⟨(stripZeros c p).1, (stripZeros c p).2 - unitExponent⟩ := by
  rw [Text.decimal] at h
  rw [shortest, h]
  rfl

/-- `c` digits on the grid of `10 ^ p`: in the interval, as few as there can be, and as near. -/
structure Best (n : Neighbourhood) (c p : Nat) : Prop where
  mod_ten : c % 10 ≠ 0
  holds : n.Holds (c * 10 ^ p)
  fewest : ∀ (k j : Nat) (e : ℤ), k < 10 ^ j → n.Holds (k * 10 ^ e) → (Text.decimal c).length ≤ j
  nearest : ∀ (k : Nat) (e : ℤ), k < 10 ^ (Text.decimal c).length → n.Holds (k * 10 ^ e) →
    |(n.value : ℚ) - c * 10 ^ p| ≤ |(n.value : ℚ) - k * 10 ^ e|

theorem shortest_best {n : Neighbourhood} (hn : n.Proper ((Text.decimal n.value).length - 1)) :
    ∃ c p : Nat, n.shortest = ⟨c, p - unitExponent⟩ ∧ n.Best c p := by
  obtain ⟨m, hm⟩ : ∃ m, (Text.decimal n.value).length - 1 = m := ⟨_, rfl⟩
  obtain ⟨⟨c, p⟩, hgrid⟩ : ∃ C, n.coarsest m = C := ⟨_, rfl⟩
  have hshortest := shortest_eq (hm ▸ hgrid)
  rw [hm] at hn
  have h : n.Coarsest m c p := by simpa only [hgrid] using coarsest_spec hn.holds m
  obtain ⟨t, hp, hc, hmod⟩ := stripZeros_spec p (h.pos hn)
  rw [hshortest, hp]
  obtain ⟨c', hc'⟩ : ∃ c', (stripZeros c p).1 = c' := ⟨_, rfl⟩
  rw [hc'] at hc hmod ⊢
  have hlength := Text.length_decimal_pos c'
  have hle : c' ≤ c := hc ▸ Nat.le_mul_of_pos_right _ (Nat.pow_pos (by decide))
  have hlow : 10 ^ ((Text.decimal c').length - 1) ≤ c :=
    (Text.pow_length_decimal_le (by omega)).trans hle
  have hfirst (hd : 0 < (Text.decimal c').length - 1) : p < m := by
    refine lt_of_le_of_ne h.le fun he => ?_
    subst he
    have hten := h.le_ten hn
    have := (Text.length_decimal_le_iff (n := c') one_pos).mpr (by omega)
    omega
  have hplace : (c' * 10 ^ (p + t) : ℚ) = c * 10 ^ p := by
    rw [hc]
    push_cast
    ring
  refine ⟨c', p + t, rfl, hmod, ?_, fun k j e hk hq => ?_, fun k e hk hq => ?_⟩
  · rw [hplace]
    exact h.nearest.holds
  · have := h.lt_digits hn hfirst hlow hk hq
    omega
  · rw [← Nat.sub_add_cancel hlength] at hk
    rw [hplace]
    exact h.abs_sub_le hn hfirst hlow hk hq

end Neighbourhood

/-! ## The neighbourhood of a rank -/

/-- How many times `10 ^ -unitExponent` a unit is. -/
@[irreducible]
def unitSize : Nat := Nat.pow 5 unitExponent

theorem unitSize_pos : (0 : ℚ) < unitSize := by
  unfold unitSize
  rw [Nat.pow_eq]
  exact Nat.cast_pos.mpr (Nat.pow_pos (by decide))

theorem unitSize_mul_unitsPerOne : (unitSize * unitsPerOne : ℚ) = 10 ^ unitExponent := by
  rw [cast_unitsPerOne]
  unfold unitSize
  rw [Nat.pow_eq, Nat.cast_pow, ← mul_pow]
  norm_num only

theorem rounds_units (r : Nat) : Rounds (units r) r := by
  have hhigh := units_lt_succ r
  have hlow : units (r - 1) ≤ units r := units_strictMono.monotone (Nat.sub_le r 1)
  refine ⟨?_, ?_, fun h => ?_⟩
  · rw [border]
    push_cast
    linarith [(Nat.cast_le (α := ℚ)).mpr hlow]
  · rw [border_succ]
    push_cast
    linarith [(Nat.cast_le (α := ℚ)).mpr hhigh.le]
  · rcases Nat.eq_zero_or_pos r with rfl | hr
    · exact Even.zero
    · have hlow : units (r - 1) < units r := units_strictMono (Nat.sub_lt hr one_pos)
      rw [border, border_succ] at h
      norm_cast at h
      omega

variable {r : Nat} {u : ℚ}

theorem ofRank_eq (r : Nat) : Neighbourhood.ofRank r =
    ⟨units r * unitSize, border r * unitSize, border (r + 1) * unitSize, r % 2 = 0⟩ := by
  obtain ⟨e, he⟩ : ∃ e, unitExponent = e := ⟨_, rfl⟩
  unfold unitSize
  rw [he]
  unfold unitExponent at he
  rw [Neighbourhood.ofRank, he]
  rfl

theorem value_ofRank (r : Nat) : (Neighbourhood.ofRank r).value = units r * unitSize := by
  rw [ofRank_eq]

theorem holds_ofRank : (Neighbourhood.ofRank r).Holds (u * unitSize) ↔ Rounds u r := by
  rw [ofRank_eq, Neighbourhood.Holds]
  simp only [Nat.cast_mul, ← mul_assoc, mul_le_mul_iff_of_pos_right unitSize_pos,
    mul_lt_mul_iff_of_pos_right unitSize_pos, decide_eq_true_iff, ← Nat.even_iff]
  split
  · next hr => exact ⟨fun h => ⟨h.1, h.2, fun _ => hr⟩, fun h => ⟨h.low, h.high⟩⟩
  · next hr =>
    refine ⟨fun h => ⟨h.1.le, h.2.le, fun hmeet => ?_⟩, fun h => ⟨?_, ?_⟩⟩
    · exact absurd hmeet (by rintro (e | e) <;> linarith)
    · exact lt_of_le_of_ne h.low fun e => hr (h.even (.inl e.symm))
    · exact lt_of_le_of_ne h.high fun e => hr (h.even (.inr e))

theorem proper_ofRank (hr : 0 < r) : (Neighbourhood.ofRank r).Proper
    ((Text.decimal (Neighbourhood.ofRank r).value).length - 1) := by
  have hsize : 0 < unitSize := Nat.cast_pos.mp unitSize_pos
  have hvalue : 0 < (Neighbourhood.ofRank r).value := by
    rw [value_ofRank]
    exact Nat.mul_pos (units_pos hr) hsize
  have hlength := Text.length_decimal_pos (Neighbourhood.ofRank r).value
  refine ⟨?_, ?_, Text.pow_length_decimal_le hvalue, ?_⟩
  · rw [value_ofRank, Nat.cast_mul, holds_ofRank]
    exact rounds_units r
  · rw [ofRank_eq]
    exact Nat.mul_pos (border_zero ▸ border_strictMono hr) hsize
  · rw [Nat.sub_add_cancel hlength]
    exact Text.lt_pow_length_decimal _

/-! ## The shortest decimal -/

def Decimal.toRat (d : Decimal) : ℚ := d.coefficient * 10 ^ d.exponent

/-- A decimal that rounds to rank `r`, where none with fewer digits does and none with as many is
nearer. -/
structure ShortestFor (r : Nat) (d : Decimal) : Prop where
  mod_ten : d.coefficient % 10 ≠ 0
  rounds : Rounds (d.toRat * unitsPerOne) r
  fewest : ∀ (k j : Nat) (e : ℤ), k < 10 ^ j → Rounds (k * 10 ^ e * unitsPerOne) r →
    (Text.decimal d.coefficient).length ≤ j
  nearest : ∀ (k : Nat) (e : ℤ), k < 10 ^ (Text.decimal d.coefficient).length →
    Rounds (k * 10 ^ e * unitsPerOne) r →
      |units r - d.toRat * unitsPerOne| ≤ |units r - (k * 10 ^ e : ℚ) * unitsPerOne|

/-- The grid of `10 ^ (e + unitExponent)` in a neighbourhood is that of `10 ^ e`. -/
theorem mul_zpow_mul_unitSize (k : ℚ) (e : ℤ) :
    k * 10 ^ e * unitsPerOne * unitSize = k * 10 ^ (e + unitExponent) := by
  rw [mul_assoc, mul_comm (unitsPerOne : ℚ), unitSize_mul_unitsPerOne, mul_assoc,
    zpow_add₀ (by norm_num), zpow_natCast]

theorem shortest_spec (hr : 0 < r) : ShortestFor r (shortest r) := by
  obtain ⟨c, p, he, h⟩ := Neighbourhood.shortest_best (proper_ofRank hr)
  have hrat : (⟨c, p - unitExponent⟩ : Decimal).toRat * unitsPerOne * unitSize = c * 10 ^ p := by
    rw [Decimal.toRat, mul_zpow_mul_unitSize, sub_add_cancel, zpow_natCast]
  have hvalue : ((Neighbourhood.ofRank r).value : ℚ) = units r * unitSize := by
    rw [value_ofRank, Nat.cast_mul]
  rw [shortest, he]
  refine ⟨h.mod_ten, ?_, fun k j e hk hq => ?_, fun k e hk hq => ?_⟩
  · rw [← holds_ofRank, hrat]
    exact h.holds
  · rw [← holds_ofRank, mul_zpow_mul_unitSize] at hq
    exact h.fewest k j _ hk hq
  · rw [← holds_ofRank, mul_zpow_mul_unitSize] at hq
    have := h.nearest k _ hk hq
    rwa [← mul_zpow_mul_unitSize, ← hrat, hvalue, ← sub_mul, ← sub_mul, abs_mul, abs_mul,
      mul_le_mul_iff_of_pos_right (abs_pos.mpr unitSize_pos.ne')] at this

end LoxLex.Double
