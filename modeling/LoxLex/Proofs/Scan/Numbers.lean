import LoxLex.Proofs.Double.Layout
import LoxLex.Proofs.Token.Display

/-!
# Numbers

A number reads as the exact value of its lexeme, however many digits it has (`number_readsAs`), and
the text that the number is printed as scans back to it where it has no exponent
(`number_scansBack`). A number built from an integer is the one that the digits of the
integer read as (`integer_agrees`).
-/

namespace LoxLex

open Grammar Binary64 Double

variable {source w : Text} {t : Token}

/-- The scan of a text that is one number. -/
def numberScan (w : Text) (x : Double) : Scan where
  tokens := [⟨.number, w, .number x, 1, 0⟩, endToken w.length 1]
  diagnostics := []
  line := 1

theorem scan_number (h : Number w) : scan w = numberScan w (decimalValue w) := by
  have hlines : Text.newlines w = 0 := List.count_eq_zero_of_not_mem fun hc => by
    rcases h.lead_of_mem hc with e | e <;> cases e
  have := scan_layout none (.last ⟨.number, w, h⟩)
  simp only [leading, List.nil_append, Layout.text, hlines] at this
  rw [this]
  rfl

theorem number_of_mem_tokens (ht : t ∈ (scan source).tokens) (hk : t.kind = .number) :
    Number t.lexeme ∧ t.literal = .number (decimalValue t.lexeme) := by
  have h := scanned_of_mem_tokens ht
  have hvalue := h.valued
  rcases h.spelled with hspells | ⟨hend, -⟩
  · rw [hk] at hspells hvalue
    exact ⟨hspells, hvalue⟩
  · rw [hk] at hend
    cases hend

/-- The literal of a number token is its lexeme's exact value, rounded once. -/
theorem number_readsAs (ht : t ∈ (scan source).tokens) (hk : t.kind = .number) :
    Number t.lexeme ∧
      ∃ x, t.literal = .number x ∧ ReadsAs (fixedPoint t.lexeme) x.bits := by
  obtain ⟨hnumber, hvalue⟩ := number_of_mem_tokens ht hk
  exact ⟨hnumber, _, hvalue, readsAs_decimalValue _⟩

/-- Half way between two numbers but for the last digit. -/
theorem number_readsAs_lateDigit :
    let w := "9007199254740993.000000000000000000001".toList
    let t : Token := ⟨.number, w, .number (ofBits 0x4340000000000001), 1, 0⟩
    t ∈ (scan w).tokens ∧ t.kind = .number ∧ ReadsAs (fixedPoint w) 0x4340000000000001 := by
  intro w t
  have ht : t ∈ (scan w).tokens := by decide +kernel
  obtain ⟨-, x, hx, hread⟩ := number_readsAs ht rfl
  obtain rfl : ofBits 0x4340000000000001 = x := Literal.number.inj hx
  exact ⟨ht, rfl, hread⟩

/-! ## Numbers that are printed -/

theorem decimalValue_eq_ofRank (w : Text) : ∃ r, decimalValue w = ofRank false r := ⟨_, rfl⟩

/-- A text that rounds to a number which is not negative reads as that number. -/
theorem decimalValue_of_roundsTo {x : Double} (h : RoundsTo (fixedPoint w) x.bits)
    (hx : isNegative x.bits = false) : decimalValue w = x := by
  have hread := readsAs_decimalValue w
  have hbits := hread.rounded.unique h (hread.isNegative.trans hx.symm)
  rw [← ofBits_bits (decimalValue w), hbits, ofBits_bits]

/-- The text of a number that was read is itself read as that number, unless it has an exponent or
is that of infinity. -/
theorem number_scansBack (ht : t ∈ (scan source).tokens) (hk : t.kind = .number)
    (hinf : t.literal.display ≠ "inf".toList) (hexponent : ¬ Scientific t.literal.display) :
    ∃ x y, t.literal = .number x ∧
      scan t.literal.display = numberScan t.literal.display y ∧ y.bits = x.bits ∧
      (Literal.number y).display = t.literal.display := by
  obtain ⟨-, hvalue⟩ := number_of_mem_tokens ht hk
  obtain ⟨r, hx⟩ := decimalValue_eq_ofRank t.lexeme
  rw [hx] at hvalue
  rw [hvalue] at hinf hexponent ⊢
  have hr : r < infinityRank := by
    by_contra hle
    exact hinf (display_ofRank_of_infinityRank_le (not_lt.mp hle))
  have hsign : isNegative (ofRank false r).bits = false := isNegative_bits hr.le
  obtain ⟨hnumber, hround⟩ := (shortestText_display false hr).number hsign hexponent
  have hback := decimalValue_of_roundsTo hround hsign
  refine ⟨_, ofRank false r, rfl, ?_, rfl, rfl⟩
  exact (scan_number hnumber).trans (by rw [hback]; rfl)

/-- What is printed is not what was written. -/
theorem number_scansBack_rounded :
    let t : Token :=
      ⟨.number, "9007199254740993".toList, .number (ofBits 0x4340000000000000), 1, 0⟩
    let w := "9007199254740992.0".toList
    t ∈ (scan t.lexeme).tokens ∧ t.literal.display = w ∧
      ∃ y, scan w = numberScan w y ∧ y.bits = 0x4340000000000000 ∧
        (Literal.number y).display = w := by
  intro t w
  have ht : t ∈ (scan t.lexeme).tokens := by decide +kernel
  have hw : t.literal.display = w := by decide +kernel
  have hplain : ¬ Scientific w := fun h => absurd h.mem (by decide)
  obtain ⟨x, y, hx, hscan, hbits, hdisplay⟩ :=
    number_scansBack ht rfl (hw ▸ by decide) (hw ▸ hplain)
  obtain rfl : ofBits 0x4340000000000000 = x := Literal.number.inj hx
  rw [hw] at hscan hdisplay
  exact ⟨ht, hw, y, hscan, hbits, hdisplay⟩

/-! ## Numbers that are built from integers -/

/-- The digits of an integer with zeros in front of them and, if there are any, behind a point. -/
def paddedDecimal (zeros n trailing : Nat) : Text :=
  List.replicate zeros '0' ++ Text.decimal n ++
    if trailing = 0 then [] else '.' :: List.replicate trailing '0'

theorem number_paddedDecimal (zeros n trailing : Nat) :
    Number (paddedDecimal zeros n trailing) := by
  have hdigits := digits_zeros_decimal zeros n
  rw [paddedDecimal]
  split
  · rw [List.append_nil]
    exact .inl hdigits
  · next ht =>
    exact .inr ⟨_, _, rfl, hdigits,
      digits_iff.mpr ⟨by simpa using ht, fun c => Text.isDigit_of_mem_zeros⟩⟩

theorem fixedPoint_paddedDecimal (zeros n trailing : Nat) :
    fixedPoint (paddedDecimal zeros n trailing) = n := by
  have hpoint := (digits_zeros_decimal zeros n).not_mem (c := '.') rfl
  rw [paddedDecimal]
  split
  · rw [List.append_nil, fixedPoint_of_not_mem hpoint, Text.ofDigitChars_zeros_append,
      Text.ofDigitChars_decimal]
  · rw [fixedPoint_append hpoint, Text.ofDigitChars_append_zeros, Text.ofDigitChars_zeros_append,
      Text.ofDigitChars_decimal, List.length_replicate, Nat.cast_mul, Nat.cast_pow, Nat.cast_ofNat,
      mul_div_cancel_right₀ _ (by positivity)]

theorem readsAs_natCast (n : Nat) : ReadsAs n (nearest n 1).bits := by
  simpa using readsAs_nearest n one_pos

/-- How an integer is written with zeros around it does not matter. -/
theorem decimalValue_paddedDecimal (zeros n trailing : Nat) :
    decimalValue (paddedDecimal zeros n trailing) = nearest n 1 := by
  have hread := readsAs_decimalValue (paddedDecimal zeros n trailing)
  rw [fixedPoint_paddedDecimal] at hread
  rw [← ofBits_bits (decimalValue _), hread.unique (readsAs_natCast n), ofBits_bits]

theorem two_pow_sub_le_natCast {i j n : Nat} (h : i ≤ j) :
    (2 ^ j - 2 ^ i : ℚ) ≤ n ↔ 2 ^ j - 2 ^ i ≤ n := by
  rw [← Nat.cast_le (α := ℚ), Nat.cast_sub (Nat.pow_le_pow_right two_pos h), Nat.cast_pow,
    Nat.cast_pow, Nat.cast_ofNat]

/-- An integer is refused where its digits read as infinity. -/
theorem infinityRank_le_nearestRank {n : Nat} :
    infinityRank ≤ nearestRank n 1 ↔ 2 ^ 1024 - 2 ^ 970 ≤ n := by
  have hrank := rounds_nearestRank n one_pos
  rw [Nat.cast_one, div_one] at hrank
  have hover := overflow_le_iff (q := n)
  rw [Nat.abs_cast] at hover
  rw [hrank.le_iff (by decide), ← hover, overflow, two_pow_sub_le_natCast (by decide)]

theorem build_integer (z : ℤ) : (Literal.Draft.integer z).build =
    if nearestRank z.natAbs 1 < infinityRank
      then .ok (.number (ofRank (z < 0) (nearestRank z.natAbs 1))) else .error .numberTooLarge := by
  rw [Literal.Draft.build]
  by_cases h : nearestRank z.natAbs 1 < infinityRank
  · have hz : ofInt? z = some (ofRank (z < 0) (nearestRank z.natAbs 1)) := if_pos h
    rw [hz, if_pos h, Option.elim_some]
  · have hz : ofInt? z = none := if_neg h
    rw [hz, if_neg h, Option.elim_none]

/-- The two ways to make a number from an integer give the same number, and where one of them has no
finite number to give the other gives infinity. -/
theorem integer_agrees (zeros n trailing : Nat) :
    (n < 2 ^ 1024 - 2 ^ 970 → ∃ x y,
      (Literal.Draft.integer n).build = .ok (.number x) ∧
      scan (paddedDecimal zeros n trailing) = numberScan (paddedDecimal zeros n trailing) y ∧
      y.bits = x.bits ∧
      (0 < n → ∃ z, (Literal.Draft.integer (-n)).build = .ok (.number z) ∧
        z.bits = 2 ^ 63 + x.bits)) ∧
    (2 ^ 1024 - 2 ^ 970 ≤ n →
      (Literal.Draft.integer n).build = .error .numberTooLarge ∧
      (Literal.Draft.integer (-n)).build = .error .numberTooLarge ∧
      ∃ y, scan (paddedDecimal zeros n trailing) = numberScan (paddedDecimal zeros n trailing) y ∧
        y.bits = infinity false) := by
  have hscan := scan_number (number_paddedDecimal zeros n trailing)
  rw [decimalValue_paddedDecimal] at hscan
  simp only [build_integer, Int.natAbs_neg, Int.natAbs_natCast]
  refine ⟨fun hn => ?_, fun hn => ?_⟩
  · rw [← not_le, ← infinityRank_le_nearestRank, not_le] at hn
    have hnot : ¬ (n : ℤ) < 0 := by omega
    refine ⟨_, _, by rw [if_pos hn], hscan, ?_, fun hpos => ⟨_, by rw [if_pos hn], ?_⟩⟩
    · rw [decide_eq_false hnot, nearest]
    · have hneg : -(n : ℤ) < 0 := by omega
      rw [decide_eq_false hnot, decide_eq_true hneg, bits_ofRank hn.le, bits_ofRank hn.le,
        if_pos rfl, if_neg Bool.false_ne_true, Nat.zero_add]
  · have hrank := infinityRank_le_nearestRank.mpr hn
    refine ⟨if_neg (not_lt.mpr hrank), if_neg (not_lt.mpr hrank), _, hscan, ?_⟩
    rw [nearest, bits_ofRank_false, Nat.min_eq_right hrank]
    decide

/-- A tie between two numbers, and the least integer that is refused. -/
theorem integer_agrees_tie :
    (∃ x y, (Literal.Draft.integer 9007199254740993).build = .ok (.number x) ∧
      scan (paddedDecimal 2 9007199254740993 1) =
        numberScan (paddedDecimal 2 9007199254740993 1) y ∧ y.bits = x.bits) ∧
    (Literal.Draft.integer (2 ^ 1024 - 2 ^ 970 : Nat)).build = .error .numberTooLarge := by
  obtain ⟨x, y, hbuild, hscan, hbits, -⟩ :=
    (integer_agrees 2 9007199254740993 1).1 (by decide +kernel)
  exact ⟨⟨x, y, hbuild, hscan, hbits⟩, ((integer_agrees 0 _ 0).2 le_rfl).1⟩

end LoxLex
