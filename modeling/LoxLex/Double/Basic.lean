/-!
# Binary64 values

`Double` is the NaN or a number, and a number is a sign and a rank. The rank is the place of the
magnitude in increasing order: zero has rank 0, the least positive magnitude rank 1 and infinity
`infinityRank`. `units r` is the magnitude of rank `r` as a multiple of `2 ^ -1074`, the least
positive one, so the order and the exact values of all magnitudes live in the natural numbers. The
ranks from one power of two up to the next are a binade. Powers are written with `Nat.pow`, which
means the same whatever else is imported.
-/

namespace LoxLex

namespace Double

/-- The number of magnitudes from one power of two up to the next, `2 ^ 52`. -/
def binadeSize : Nat := Nat.pow 2 52

/-- The exponent field of all ones over an empty fraction. -/
def infinityRank : Nat := 2047 * binadeSize

end Double

inductive Double where
  | number (negative : Bool) (rank : Fin (Double.infinityRank + 1))
  | nan
  deriving DecidableEq

namespace Double

/-- The magnitude of rank `r` in units of `2 ^ -1074`. The first two binades are equally spaced; from
then on the spacing doubles with each. -/
def units (r : Nat) : Nat :=
  let exponent := r / binadeSize
  let fraction := r % binadeSize
  if exponent = 0 then fraction else (binadeSize + fraction) * Nat.pow 2 (exponent - 1)

/-- The number of a rank, ranks past infinity being infinite too. -/
def ofRank (negative : Bool) (r : Nat) : Double :=
  number negative ⟨min r infinityRank, Nat.lt_succ_of_le (Nat.min_le_right ..)⟩

/-- The sign bit stands above the rank. -/
def signBit : Nat := Nat.pow 2 63

/-- The 64-bit pattern. The NaN has the top bit of its fraction set. -/
def bits : Double → Nat
  | number negative rank => (if negative then signBit else 0) + rank
  | nan => infinityRank + binadeSize / 2

/-- The value of a 64-bit pattern; all patterns above infinity are the NaN. -/
def ofBits (b : Nat) : Double :=
  let rank := b % signBit
  if rank ≤ infinityRank then ofRank (signBit ≤ b) rank else nan

/-- Equality of numbers: the two zeros are equal, and the NaN equals nothing. -/
def equals : Double → Double → Bool
  | number n r, number n' r' => r = r' && (n = n' || r.val = 0)
  | _, _ => false

theorem ofBits_bits (x : Double) : ofBits x.bits = x := by
  cases x with
  | number negative rank =>
    obtain ⟨r, hr⟩ := rank
    have hi : infinityRank < signBit := by decide
    have key : (number negative ⟨r, hr⟩).bits % signBit = r ∧
        decide (signBit ≤ (number negative ⟨r, hr⟩).bits) = negative := by
      cases negative
      · have hb : (number false ⟨r, hr⟩).bits = r := Nat.zero_add r
        rw [hb]
        exact ⟨Nat.mod_eq_of_lt (by omega), decide_eq_false (by omega)⟩
      · have hb : (number true ⟨r, hr⟩).bits = signBit + r := rfl
        rw [hb, Nat.add_mod_left]
        exact ⟨Nat.mod_eq_of_lt (by omega), decide_eq_true (by omega)⟩
    unfold ofBits ofRank
    rw [key.1, key.2, if_pos (Nat.le_of_lt_succ hr)]
    congr 2
    exact Nat.min_eq_left (Nat.le_of_lt_succ hr)
  | nan => decide

end Double

end LoxLex
