import LoxLex.Token.Literal
import LoxLex.Proofs.Double.Shortest
import LoxLex.Proofs.Grammar.Decimal

/-!
# Numbers as text

However the digits of a decimal are laid out, the text stands for that decimal, has no other
significant digits and shows where the first one stands (`Decimal.exactValue_display`,
`Decimal.significantDigits_display`, `Decimal.positional_display_iff`). With the digits of
`shortest` it is a shortest text that reads back as the number it was written for
(`shortestText_display`).
-/

namespace LoxLex.Double

open Grammar Binary64

variable {digits : Text} {e : ℤ}

/-- The point stands behind the first `e + 1` digits, after zeros have been added where digits are
missing. -/
theorem positional_eq (hd : Digits digits) (e : ℤ) :
    ∃ whole fraction a b, positional digits e = whole ++ '.' :: fraction ∧
      Digits whole ∧ Digits fraction ∧
      whole ++ fraction = List.replicate a '0' ++ (digits ++ List.replicate b '0') ∧
      (b : ℤ) - fraction.length = e + 1 - digits.length := by
  obtain ⟨hne, hdigits⟩ := digits_iff.mp hd
  simp only [digits_iff]
  rw [positional]
  split
  · next he =>
    refine ⟨['0'], List.replicate (-e - 1).toNat '0' ++ digits, (-e - 1).toNat + 1, 0, rfl,
      ⟨by simp, by simp⟩, ⟨by simp [hne], ?_⟩, by simp [List.replicate_succ], ?_⟩
    · exact fun c hc => (List.mem_append.mp hc).elim Text.isDigit_of_mem_zeros (hdigits c)
    · simp
      omega
  · next he =>
    dsimp only
    split
    · next hf =>
      rw [List.drop_eq_nil_iff] at hf
      refine ⟨digits ++ List.replicate (e.toNat + 1 - digits.length) '0', ['0'], 0,
        e.toNat + 1 - digits.length + 1, ?_, ⟨by simp [hne], ?_⟩, ⟨by simp, by simp⟩, ?_, ?_⟩
      · rw [List.take_of_length_le hf]
      · exact fun c hc => (List.mem_append.mp hc).elim (hdigits c) Text.isDigit_of_mem_zeros
      · simp [List.replicate_succ']
      · simp
        omega
    · next hf =>
      have hlt : e.toNat + 1 < digits.length := by
        rw [List.drop_eq_nil_iff] at hf
        omega
      refine ⟨digits.take (e.toNat + 1), digits.drop (e.toNat + 1), 0, 0, ?_, ⟨?_, ?_⟩, ⟨hf, ?_⟩,
        by simp, ?_⟩
      · simp [Nat.sub_eq_zero_of_le hlt.le]
      · simp [hne]
      · exact fun c hc => hdigits c (List.mem_of_mem_take hc)
      · exact fun c hc => hdigits c (List.mem_of_mem_drop hc)
      · simp
        omega

theorem exponentText_eq (e : ℤ) :
    ∃ exponentSign exponent, exponentText e = exponentSign :: exponent ∧
      (exponentSign = '+' ∨ exponentSign = '-') ∧ Digits exponent ∧ 2 ≤ exponent.length ∧
      exponentValue (exponentText e) = e := by
  have hvalue : Nat.ofDigitChars 10 (List.replicate (2 - (Text.decimal e.natAbs).length) '0' ++
      Text.decimal e.natAbs) 0 = e.natAbs := by
    rw [Text.ofDigitChars_zeros_append, Text.ofDigitChars_decimal]
  refine ⟨if e < 0 then '-' else '+', List.replicate (2 - (Text.decimal e.natAbs).length) '0' ++
    Text.decimal e.natAbs, rfl, ?_, ?_, ?_, ?_⟩
  · split <;> simp
  · exact digits_zeros_decimal _ _
  · simp
    omega
  · rw [exponentText, List.cons_append]
    split
    · rw [exponentValue, hvalue]
      omega
    · rw [exponentValue, hvalue]
      omega

/-- The digits of a mantissa, with the point behind the first one. -/
def leadText (digits : Text) : Text :=
  digits.take 1 ++ if digits.drop 1 = [] then [] else '.' :: digits.drop 1

theorem scientific_eq (digits : Text) (e : ℤ) :
    scientific digits e = leadText digits ++ 'e' :: exponentText e := rfl

theorem isDigit_of_mem_leadText (hd : Digits digits) {c : Char} (hc : c ∈ leadText digits) :
    c.isDigit = true ∨ c = '.' := by
  obtain ⟨-, hdigits⟩ := digits_iff.mp hd
  rcases List.mem_append.mp hc with hc | hc
  · exact .inl (hdigits c (List.mem_of_mem_take hc))
  · split at hc
    · cases hc
    · exact (List.mem_cons.mp hc).symm.imp_left fun hc => hdigits c (List.mem_of_mem_drop hc)

theorem leadText_eq (hd : Digits digits) :
    ∃ digit fraction, leadText digits = digit :: fraction ∧ IsDigit digit ∧
      (fraction = [] ∨ ∃ tail, fraction = '.' :: tail ∧ Digits tail) ∧
      (leadText digits).filter Char.isDigit = digits ∧
      fixedPoint (leadText digits) =
        Nat.ofDigitChars 10 digits 0 / 10 ^ (digits.length - 1) := by
  obtain ⟨hne, hdigits⟩ := digits_iff.mp hd
  cases digits with
  | nil => exact absurd rfl hne
  | cons digit tail =>
    have hdigit := hdigits digit List.mem_cons_self
    have hpoint : '.' ∉ [digit] :=
      (digits_iff.mpr ⟨by simp, by simpa using hdigit⟩ : Digits [digit]).not_mem rfl
    by_cases htail : tail = []
    · subst htail
      refine ⟨digit, [], rfl, isDigit_iff.mp hdigit, .inl rfl, ?_, ?_⟩
      · exact List.filter_cons_of_pos hdigit
      · change fixedPoint [digit] = _
        rw [fixedPoint_of_not_mem hpoint]
        simp
    · have hlead : leadText (digit :: tail) = [digit] ++ '.' :: tail := by
        simp [leadText, htail]
      have htail' : ∀ c ∈ tail, c.isDigit = true := fun c hc =>
        hdigits c (List.mem_cons_of_mem _ hc)
      refine ⟨digit, '.' :: tail, hlead, isDigit_iff.mp hdigit,
        .inr ⟨tail, rfl, digits_iff.mpr ⟨htail, htail'⟩⟩, ?_, ?_⟩
      · rw [hlead]
        simp [hdigit, List.filter_eq_self.mpr htail', show '.'.isDigit = false from rfl]
      · rw [hlead, fixedPoint_append hpoint]
        rfl

/-- A text for a decimal number, still without a sign. -/
structure Writes (w : Text) (d : Decimal) : Prop where
  head : w.head? ≠ some '-'
  value : unsignedValue w = d.toRat
  digits : significantDigits w = Text.decimal d.coefficient

theorem Decimal.writes_positional {d : Decimal} (hd : d.coefficient % 10 ≠ 0) (negative : Bool)
    (he : e = d.exponent + (Text.decimal d.coefficient).length - 1) :
    Writes (positional (Text.decimal d.coefficient) e) d ∧
      Positional (sign negative ++ positional (Text.decimal d.coefficient) e) := by
  obtain ⟨whole, fraction, a, b, htext, hwhole, hfraction, hzeros, hplace⟩ :=
    positional_eq (digits_decimal d.coefficient) e
  rw [htext]
  have hmem : 'e' ∉ whole ++ '.' :: fraction :=
    Positional.not_mem ⟨false, whole, fraction, rfl, hwhole, hfraction⟩
  have hfilter : (mantissa (whole ++ '.' :: fraction)).filter Char.isDigit = whole ++ fraction := by
    rw [mantissa, takeWhile_ne_eq_self hmem, List.filter_append,
      List.filter_eq_self.mpr (digits_iff.mp hwhole).2, List.filter_cons_of_neg (by decide),
      List.filter_eq_self.mpr (digits_iff.mp hfraction).2]
  refine ⟨⟨hwhole.head?_append_ne rfl, ?_, ?_⟩, negative, whole, fraction, by simp, hwhole,
    hfraction⟩
  · have hexponent : d.exponent = b - fraction.length := by omega
    rw [unsignedValue_of_not_mem hmem, fixedPoint_append (hwhole.not_mem rfl), hzeros,
      Text.ofDigitChars_zeros_append, Text.ofDigitChars_append_zeros, Text.ofDigitChars_decimal,
      Decimal.toRat, hexponent, zpow_sub₀ (by norm_num), zpow_natCast, zpow_natCast]
    push_cast
    rw [mul_div_assoc]
  · exact significantDigits_eq (hfilter.trans hzeros) (Text.decimal_ne_nil _)
      (Text.head?_decimal_ne (by omega)) (Text.getLast?_decimal_ne hd)

theorem Decimal.writes_scientific {d : Decimal} (hd : d.coefficient % 10 ≠ 0) (negative : Bool)
    (he : e = d.exponent + (Text.decimal d.coefficient).length - 1) :
    Writes (scientific (Text.decimal d.coefficient) e) d ∧
      Scientific (sign negative ++ scientific (Text.decimal d.coefficient) e) := by
  have hlength := Text.length_decimal_pos d.coefficient
  obtain ⟨digit, fraction, hlead, hdigit, hpoint, hfilter, hfixed⟩ :=
    leadText_eq (digits_decimal d.coefficient)
  obtain ⟨exponentSign, exponent, htext, hsign, hexponent, htwo, hvalue⟩ := exponentText_eq e
  rw [scientific_eq]
  have hmem : 'e' ∉ leadText (Text.decimal d.coefficient) := fun h => by
    simpa using isDigit_of_mem_leadText (digits_decimal _) h
  have hmantissa : mantissa (leadText (Text.decimal d.coefficient) ++ 'e' :: exponentText e) =
      leadText (Text.decimal d.coefficient) := takeWhile_ne_append hmem
  refine ⟨⟨?_, ?_, ?_⟩, negative, digit, fraction, exponentSign, exponent,
    by rw [hlead, htext, List.append_assoc], hdigit, hpoint, hsign, hexponent, htwo⟩
  · rw [hlead]
    rintro ⟨⟩
    cases isDigit_iff.mpr hdigit
  · rw [unsignedValue_append hmem, hfixed, hvalue, Text.ofDigitChars_decimal, Decimal.toRat, he,
      div_mul_eq_mul_div, mul_div_assoc, ← zpow_natCast, ← zpow_sub₀ (by norm_num)]
    congr 2
    push_cast [hlength]
    ring
  · refine significantDigits_eq (a := 0) (b := 0) ?_ (Text.decimal_ne_nil _)
      (Text.head?_decimal_ne (by omega)) (Text.getLast?_decimal_ne hd)
    rw [hmantissa, hfilter]
    simp

/-! ## The shortest text -/

namespace Decimal

variable {d : Decimal}

theorem toRat_pos (hd : 0 < d.coefficient) : 0 < d.toRat :=
  mul_pos (Nat.cast_pos.mpr hd) (zpow_pos (by norm_num) _)

/-- The first digit stands where the exponent and the number of digits say. -/
theorem log_toRat (hd : 0 < d.coefficient) :
    Int.log 10 d.toRat = d.exponent + (Text.decimal d.coefficient).length - 1 := by
  have hlength := Text.length_decimal_pos d.coefficient
  have hlow : (10 : ℚ) ^ ((Text.decimal d.coefficient).length - 1) ≤ d.coefficient := by
    exact_mod_cast Text.pow_length_decimal_le hd
  have hhigh : (d.coefficient : ℚ) < 10 ^ (Text.decimal d.coefficient).length := by
    exact_mod_cast Text.lt_pow_length_decimal d.coefficient
  have hscale : (0 : ℚ) < 10 ^ d.exponent := zpow_pos (by norm_num) _
  refine le_antisymm ?_ ?_
  · rw [Int.le_sub_one_iff, ← Int.lt_zpow_iff_log_lt (by decide) (toRat_pos hd), toRat,
      Nat.cast_ofNat, zpow_add₀ (by norm_num), zpow_natCast, mul_comm]
    exact mul_lt_mul_of_pos_left hhigh hscale
  · rw [← Int.zpow_le_iff_le_log (by decide) (toRat_pos hd), toRat, Nat.cast_ofNat,
      add_sub_assoc, zpow_add₀ (by norm_num), mul_comm,
      show ((Text.decimal d.coefficient).length - 1 : ℤ) =
        ((Text.decimal d.coefficient).length - 1 : Nat) by omega, zpow_natCast]
    exact mul_le_mul_of_nonneg_right hlow hscale.le

theorem writes_display (hd : d.coefficient % 10 ≠ 0) : Writes d.display d := by
  rw [display]
  split
  · exact (writes_positional hd false rfl).1
  · exact (writes_scientific hd false rfl).1

theorem positional_display_iff (hd : d.coefficient % 10 ≠ 0) (negative : Bool) :
    (Positional (sign negative ++ d.display) ↔
      isPositional (d.exponent + (Text.decimal d.coefficient).length - 1) = true) ∧
    (Scientific (sign negative ++ d.display) ↔
      ¬ isPositional (d.exponent + (Text.decimal d.coefficient).length - 1) = true) := by
  rw [display]
  split
  · next hp =>
    have h := (writes_positional hd negative rfl).2
    exact ⟨iff_of_true h hp, iff_of_false h.not_scientific (not_not.mpr hp)⟩
  · next hp =>
    have h := (writes_scientific hd negative rfl).2
    exact ⟨iff_of_false (fun hpos => hpos.not_scientific h) hp, iff_of_true h hp⟩

variable (negative : Bool)

theorem exactValue_display (hd : d.coefficient % 10 ≠ 0) :
    exactValue (sign negative ++ d.display) = (if negative then -1 else 1) * d.toRat := by
  have h := d.writes_display hd
  rw [exactValue_sign negative h.head, h.value]

theorem abs_exactValue_display (hd : d.coefficient % 10 ≠ 0) :
    |exactValue (sign negative ++ d.display)| = d.toRat := by
  have hpos : 0 < d.toRat := toRat_pos (by omega)
  rw [exactValue_display negative hd]
  cases negative <;> simp [abs_of_pos hpos]

theorem significantDigits_display (hd : d.coefficient % 10 ≠ 0) :
    significantDigits (sign negative ++ d.display) = Text.decimal d.coefficient := by
  rw [significantDigits_sign, (d.writes_display hd).digits]

theorem isPositional_iff_decimalExponent (hd : d.coefficient % 10 ≠ 0) :
    isPositional (d.exponent + (Text.decimal d.coefficient).length - 1) = true ↔
      -4 ≤ decimalExponent (sign negative ++ d.display) ∧
        decimalExponent (sign negative ++ d.display) < 16 := by
  rw [decimalExponent, abs_exactValue_display negative hd, log_toRat (by omega), isPositional,
    Bool.and_eq_true, decide_eq_true_iff, decide_eq_true_iff]

end Decimal

/-- `w` is a shortest text for the finite pattern `b`. -/
structure ShortestText (b : Nat) (w : Text) : Prop where
  /-- With its sign the text rounds to `b` and to no other pattern. -/
  readsBack : ∀ c, RoundsTo (exactValue w) c ∧ isNegative c = decide (w.head? = some '-') ↔ c = b
  zero : value b = 0 → w = sign (isNegative b) ++ "0.0".toList
  written : HasDigits (significantDigits w).length (exactValue w)
  fewest : value b ≠ 0 → ∀ q n, HasDigits n q → RoundsTo q b → (significantDigits w).length ≤ n
  nearest : value b ≠ 0 → ∀ q, HasDigits (significantDigits w).length q → RoundsTo q b →
    |exactValue w - value b| ≤ |q - value b|
  positional : Positional w ↔ -4 ≤ decimalExponent w ∧ decimalExponent w < 16
  scientific : Scientific w ↔ ¬ (-4 ≤ decimalExponent w ∧ decimalExponent w < 16)

variable {negative : Bool} {r : Nat} {w : Text} {d : Decimal}

theorem head?_sign (h : w.head? ≠ some '-') :
    decide ((sign negative ++ w).head? = some '-') = negative := by
  cases negative
  · exact decide_eq_false h
  · exact decide_eq_true rfl

/-- A text that rounds to a pattern of its own sign rounds to no other one of that sign. -/
theorem readsBack_iff (hr : r < infinityRank) (hw : w.head? ≠ some '-')
    (h : RoundsTo (exactValue (sign negative ++ w)) (ofRank negative r).bits) (c : Nat) :
    RoundsTo (exactValue (sign negative ++ w)) c ∧
      isNegative c = decide ((sign negative ++ w).head? = some '-') ↔
        c = (ofRank negative r).bits := by
  have hsign : isNegative (ofRank negative r).bits = negative := isNegative_bits hr.le
  rw [head?_sign hw]
  exact ⟨fun hc => hc.1.unique h (hc.2.trans hsign.symm), fun hc => hc ▸ ⟨h, hsign⟩⟩

theorem shortestText_zero (negative : Bool) :
    ShortestText (ofRank negative 0).bits (sign negative ++ "0.0".toList) := by
  have hfixed : fixedPoint "0.0".toList = 0 := by
    have : Nat.ofDigitChars 10 ['0', '0'] 0 = 0 := by decide
    rw [show "0.0".toList = ['0'] ++ '.' :: ['0'] from rfl, fixedPoint_append (by decide)]
    simp [this]
  have hexact : exactValue (sign negative ++ "0.0".toList) = 0 := by
    rw [exactValue_sign negative (by decide), unsignedValue_of_not_mem (by decide), hfixed,
      mul_zero]
  have hvalue : value (ofRank negative 0).bits = 0 := by
    rw [value_bits (Nat.zero_le _), units_zero]
    simp
  have hround : RoundsTo (exactValue (sign negative ++ "0.0".toList)) (ofRank negative 0).bits := by
    rw [hexact]
    refine roundsTo_of_rounds (by decide) (absurd rfl) ?_
    simpa [units_zero] using rounds_units 0
  have hdigits : significantDigits (sign negative ++ "0.0".toList) = [] := by
    rw [significantDigits_sign]
    decide
  have hexponent : decimalExponent (sign negative ++ "0.0".toList) = 0 := by
    rw [decimalExponent, hexact, abs_zero, Int.log_zero_right]
  have hpositional : Positional (sign negative ++ "0.0".toList) :=
    ⟨negative, ['0'], ['0'], by simp, by simp [digits_iff], by simp [digits_iff]⟩
  refine ⟨readsBack_iff (by decide) (by decide) hround, fun _ => ?_, ?_, absurd hvalue,
    absurd hvalue, ?_, ?_⟩
  · rw [isNegative_bits (Nat.zero_le _)]
  · rw [hdigits, hexact]
    exact ⟨0, 0, by decide, by simp⟩
  · exact iff_of_true hpositional (by rw [hexponent]; decide)
  · exact iff_of_false hpositional.not_scientific (not_not.mpr (by rw [hexponent]; decide))

theorem shortestText_display_of_pos (negative : Bool) (hpos : 0 < r) (hr : r < infinityRank) :
    ShortestText (ofRank negative r).bits (sign negative ++ (shortest r).display) := by
  obtain ⟨d, hd⟩ : ∃ d, shortest r = d := ⟨_, rfl⟩
  have h : ShortestFor r d := hd ▸ shortest_spec hpos
  rw [hd]
  have hexact := d.exactValue_display negative h.mod_ten
  have habs := d.abs_exactValue_display negative h.mod_ten
  have hdigits := d.significantDigits_display negative h.mod_ten
  have hexponent := d.isPositional_iff_decimalExponent negative h.mod_ten
  have hlayout := d.positional_display_iff h.mod_ten negative
  have hdpos : 0 < d.toRat := Decimal.toRat_pos (by have := h.mod_ten; omega)
  have hsign : exactValue (sign negative ++ d.display) ≠ 0 →
      negative = decide (exactValue (sign negative ++ d.display) < 0) := fun _ => by
    rw [hexact]
    cases negative <;> simp [hdpos, hdpos.le]
  have hround : RoundsTo (exactValue (sign negative ++ d.display)) (ofRank negative r).bits :=
    roundsTo_of_rounds hr hsign (habs.symm ▸ h.rounds)
  have hvalue : value (ofRank negative r).bits ≠ 0 := by
    have hunits : (units r : ℚ) ≠ 0 := Nat.cast_ne_zero.mpr (units_pos hpos).ne'
    rw [value_bits hr.le]
    cases negative <;> simp [hunits, unitsPerOne_pos.ne']
  refine ⟨readsBack_iff hr (d.writes_display h.mod_ten).head hround, fun h => absurd h hvalue,
    ?_, ?_, ?_, ?_, ?_⟩
  · rw [hdigits]
    exact ⟨d.coefficient, d.exponent, Text.lt_pow_length_decimal _, habs⟩
  · rintro - q n ⟨k, e, hk, hq⟩ hb
    rw [hdigits]
    exact h.fewest k n e hk (hq ▸ rounds_of_roundsTo hr hb)
  · rintro - q ⟨k, e, hk, hq⟩ hb
    have hqsign : q ≠ 0 → negative = decide (q < 0) := by
      simpa only [isNegative_bits hr.le] using hb.sign
    rw [hdigits] at hk
    have hle := h.nearest k e hk (hq ▸ rounds_of_roundsTo hr hb)
    rw [abs_sub_value_bits hsign hr.le, abs_sub_value_bits hqsign hr.le, habs, hq,
      div_le_div_iff_of_pos_right unitsPerOne_pos, abs_sub_comm, abs_sub_comm _ (units r : ℚ)]
    exact hle
  · rw [hlayout.1, hexponent]
  · rw [hlayout.2, hexponent]

theorem display_ofRank (negative : Bool) (hr : r < infinityRank) : (ofRank negative r).display =
    sign negative ++ if r = 0 then "0.0".toList else (shortest r).display := by
  rw [ofRank, display, displayMagnitude]
  simp only [Nat.min_eq_left hr.le, hr, if_true]
  rfl

theorem display_ofRank_of_infinityRank_le (h : infinityRank ≤ r) :
    (ofRank false r).display = "inf".toList := by
  have hpos : infinityRank ≠ 0 := by decide
  rw [ofRank, display, displayMagnitude]
  simp [Nat.min_eq_right h, hpos]

theorem shortestText_display (negative : Bool) (hr : r < infinityRank) :
    ShortestText (ofRank negative r).bits (ofRank negative r).display := by
  rw [display_ofRank negative hr]
  split
  · next h => exact h ▸ shortestText_zero negative
  · next h => exact shortestText_display_of_pos negative (Nat.pos_of_ne_zero h) hr

/-- Without a sign and an exponent a shortest text is a number of the source, with the value that it
has there. -/
theorem ShortestText.number {b : Nat} (h : ShortestText b w) (hb : isNegative b = false)
    (hw : ¬ Scientific w) : Number w ∧ RoundsTo (fixedPoint w) b := by
  have hpositional := h.positional.mpr (by_contra fun hp => hw (h.scientific.mpr hp))
  have hmem := hpositional.not_mem
  obtain ⟨hround, hsign⟩ := (h.readsBack b).mpr rfl
  obtain ⟨negative, whole, fraction, rfl, hwhole, hfraction⟩ := hpositional
  have hhead : (whole ++ '.' :: fraction).head? ≠ some '-' := hwhole.head?_append_ne rfl
  rw [List.append_assoc, head?_sign hhead, hb] at hsign
  subst hsign
  have hexact := exactValue_sign false hhead
  rw [unsignedValue_of_not_mem (w := whole ++ '.' :: fraction) hmem, if_neg Bool.false_ne_true,
    one_mul] at hexact
  exact ⟨.inr ⟨whole, fraction, rfl, hwhole, hfraction⟩, hexact ▸ hround⟩

/-- Every finite number is written as a shortest text that reads back as the same pattern. -/
theorem shortestText_ofBits (b : Nat) (h : IsFinite b) :
    ShortestText b (Literal.number (ofBits b)).display := by
  obtain ⟨negative, r, hr, rfl⟩ := isFinite_iff.mp h
  rw [ofBits_bits]
  exact shortestText_display negative hr

theorem shortestText_leastSubnormal :
    IsFinite (2 ^ 63 + 1) ∧ ShortestText (2 ^ 63 + 1) "-5e-324".toList := by
  have hfinite : IsFinite (2 ^ 63 + 1) := by
    unfold IsFinite
    decide
  have htext : (Literal.number (ofBits (2 ^ 63 + 1))).display = "-5e-324".toList := by
    decide +kernel
  exact ⟨hfinite, htext ▸ shortestText_ofBits _ hfinite⟩

end LoxLex.Double
