import LoxLex.Proofs.Double.Layout
import LoxLex.Proofs.Text.Quoted

/-!
# Numbers told apart

The text of a number tells its pattern, also for the infinities and the NaN (`display_inj`). These
have texts without digits, and a shortest text reads back as one pattern only.
-/

namespace LoxLex.Double

open Grammar Binary64

variable {x y : Double} {w : Text} {b : Nat} {c : Char}

/-- The characters of a number that is written with digits. -/
def IsNumeric (c : Char) : Prop := c.isDigit = true ∨ c ∈ ['-', '+', '.', 'e']

theorem isNumeric_sign {negative : Bool} (hc : c ∈ sign negative) : IsNumeric c := by
  cases negative with
  | false => cases hc
  | true =>
    rw [List.mem_singleton.mp hc]
    exact .inr (by decide)

theorem isNumeric_digits (hw : Digits w) (hc : c ∈ w) : IsNumeric c :=
  .inl ((digits_iff.mp hw).2 c hc)

theorem isNumeric_of_positional (h : Positional w) (hc : c ∈ w) : IsNumeric c := by
  obtain ⟨negative, whole, fraction, rfl, hwhole, hfraction⟩ := h
  simp only [List.mem_append, List.mem_cons] at hc
  rcases hc with (hc | hc) | rfl | hc
  · exact isNumeric_sign hc
  · exact isNumeric_digits hwhole hc
  · exact .inr (by decide)
  · exact isNumeric_digits hfraction hc

theorem isNumeric_of_scientific (h : Scientific w) (hc : c ∈ w) : IsNumeric c := by
  obtain ⟨negative, digit, fraction, exponentSign, exponent, rfl, hdigit, hfraction, hsign,
    hexponent, -⟩ := h
  simp only [List.mem_append, List.mem_cons] at hc
  rcases hc with (hc | rfl | hc) | rfl | rfl | hc
  · exact isNumeric_sign hc
  · exact .inl (isDigit_iff.mpr hdigit)
  · rcases hfraction with rfl | ⟨tail, rfl, htail⟩
    · cases hc
    · rcases List.mem_cons.mp hc with rfl | hc
      · exact .inr (by decide)
      · exact isNumeric_digits htail hc
  · exact .inr (by decide)
  · rcases hsign with rfl | rfl <;> exact .inr (by decide)
  · exact isNumeric_digits hexponent hc

namespace ShortestText

variable {b' : Nat}

theorem positional_or_scientific (h : ShortestText b w) : Positional w ∨ Scientific w := by
  by_cases he : -4 ≤ decimalExponent w ∧ decimalExponent w < 16
  · exact .inl (h.positional.mpr he)
  · exact .inr (h.scientific.mpr he)

theorem isNumeric (h : ShortestText b w) (hc : c ∈ w) : IsNumeric c :=
  h.positional_or_scientific.elim (isNumeric_of_positional · hc) (isNumeric_of_scientific · hc)

theorem exists_digit (h : ShortestText b w) : ∃ c ∈ w, c.isDigit = true := by
  rcases h.positional_or_scientific with hw | hw
  · obtain ⟨negative, whole, fraction, rfl, hwhole, -⟩ := hw
    obtain ⟨hne, hdigits⟩ := digits_iff.mp hwhole
    obtain ⟨d, hd⟩ := List.exists_mem_of_ne_nil whole hne
    exact ⟨d, by simp [hd], hdigits d hd⟩
  · obtain ⟨negative, digit, fraction, exponentSign, exponent, rfl, hdigit, -⟩ := hw
    exact ⟨digit, by simp, isDigit_iff.mpr hdigit⟩

/-- A text is the shortest one of one pattern only. -/
theorem unique (h : ShortestText b w) (h' : ShortestText b' w) : b = b' :=
  (h'.readsBack b).mp ((h.readsBack b).mpr rfl)

end ShortestText

theorem bits_inj : x.bits = y.bits ↔ x = y :=
  ⟨fun h => by rw [← ofBits_bits x, h, ofBits_bits], fun h => h ▸ rfl⟩

/-- The numbers without digits, with their texts. -/
def wordy : List (Double × Text) :=
  [(nan, "nan".toList), (ofRank false infinityRank, "inf".toList),
    (ofRank true infinityRank, "-inf".toList)]

theorem mem_wordy_or_shortestText (x : Double) :
    (x, x.display) ∈ wordy ∨ ShortestText x.bits x.display := by
  cases x with
  | nan => exact .inl List.mem_cons_self
  | number negative rank =>
    obtain ⟨r, hr⟩ := rank
    have hle : r ≤ infinityRank := Nat.le_of_lt_succ hr
    have hx : number negative ⟨r, hr⟩ = ofRank negative r := by
      rw [ofRank]
      simp only [Nat.min_eq_left hle]
    rw [hx]
    rcases Nat.lt_or_eq_of_le hle with hlt | rfl
    · exact .inr (shortestText_display negative hlt)
    · exact .inl (by cases negative <;> decide +kernel)

/-- A closing parenthesis behind a number is no part of it. -/
theorem mem_display (hc : c ∈ x.display) : Text.IsShown c ∧ c ≠ ')' := by
  have hwordy : ∀ entry ∈ wordy,
      entry.2.all (fun d => decide (Text.IsShown d ∧ d ≠ ')')) = true := by decide
  have hsigns : ['-', '+', '.', 'e'].all (fun d => decide (Text.IsShown d ∧ d ≠ ')')) = true := by
    decide
  rcases mem_wordy_or_shortestText x with hx | hx
  · exact of_decide_eq_true (List.all_eq_true.mp (hwordy _ hx) c hc)
  · rcases hx.isNumeric hc with hdigit | hsign
    · refine ⟨Text.isShown_of_isDigit hdigit, ?_⟩
      rintro rfl
      cases hdigit
    · exact of_decide_eq_true (List.all_eq_true.mp hsigns c hsign)

theorem display_inj (h : x.display = y.display) : x = y := by
  have hdigits : ∀ entry ∈ wordy, (entry.2.any Char.isDigit) = false := by decide
  have hwordy : ∀ e ∈ wordy, ∀ e' ∈ wordy, e.2 = e'.2 → e.1 = e'.1 := by decide +kernel
  have hmixed {x y : Double} (hx : (x, x.display) ∈ wordy) (hy : ShortestText y.bits y.display) :
      x.display ≠ y.display := fun e => by
    obtain ⟨c, hc, hdigit⟩ := hy.exists_digit
    have := List.any_eq_false.mp (hdigits _ hx) c (e ▸ hc)
    exact this hdigit
  rcases mem_wordy_or_shortestText x with hx | hx <;>
    rcases mem_wordy_or_shortestText y with hy | hy
  · exact hwordy _ hx _ hy h
  · exact absurd h (hmixed hx hy)
  · exact absurd h.symm (hmixed hy hx)
  · exact bits_inj.mp ((h ▸ hx).unique hy)

end LoxLex.Double
