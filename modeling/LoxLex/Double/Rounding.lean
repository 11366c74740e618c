import LoxLex.Double.Basic

/-!
# Rounding to nearest

`nearest num den` is the binary64 value nearest to `num / den`, a tie going to the even
significand and everything from `2 ^ 1024 - 2 ^ 970` on to infinity. The quotient is taken on the
grid of the magnitudes around it: `scale` is how often the spacing has doubled there. Consecutive
ranks are consecutive grid points, so the rounded quotient is an offset of ranks and a carry into
the next power of two needs no case of its own.

`ofInt?` refuses the integers that round beyond the largest finite magnitude.
-/

namespace LoxLex

namespace Double

/-- The whole number nearest to `n / d`, a half going to the even neighbour. -/
def roundQuotient (n d : Nat) : Nat :=
  let below := n / d
  match compare (2 * (n % d)) d with
  | .lt => below
  | .gt => below + 1
  | .eq => below + below % 2

/-- How often the spacing of the magnitudes has doubled at `n / d` units. -/
def scale (n d : Nat) : Nat := (n / d).log2 - 52

/-- The rank that `num / den` rounds to, ranks going on past infinity. -/
def nearestRank (num den : Nat) : Nat :=
  let n := num * Nat.pow 2 1074
  let s := scale n den
  s * binadeSize + roundQuotient n (den * Nat.pow 2 s)

def nearest (num den : Nat) : Double := ofRank false (nearestRank num den)

/-- The nearest finite value; none if rounding would leave the finite range. -/
def ofInt? (n : Int) : Option Double :=
  let r := nearestRank n.natAbs 1
  if r < infinityRank then some (ofRank (n < 0) r) else none

end Double

end LoxLex
