import LoxLex.Double.Rounding

/-!
# Shortest digits

`shortest r` is the decimal with the fewest significant digits that rounds to the magnitude of
rank `r`, and of these the one nearest to it. Everything is counted in `10 ^ -1074`, in which every
finite magnitude is whole. `Neighbourhood` holds the magnitude and twice the ends of the interval
that rounds to it; `onGrid` looks for a multiple of `10 ^ p` in the interval, where only the two
neighbours of the magnitude can be the nearest, and `coarsest` tries the grids from the coarsest on.
-/

namespace LoxLex

namespace Double

/-- A magnitude with twice the ends of its rounding interval, in a common unit. -/
structure Neighbourhood where
  value : Nat
  twiceLow : Nat
  twiceHigh : Nat
  closed : Bool

namespace Neighbourhood

/-- The interval ends half way to the neighbouring ranks; both ends belong to even ranks. -/
def ofRank (r : Nat) : Neighbourhood where
  value := units r * Nat.pow 5 1074
  twiceLow := (units (r - 1) + units r) * Nat.pow 5 1074
  twiceHigh := (units r + units (r + 1)) * Nat.pow 5 1074
  closed := r % 2 = 0

def contains (n : Neighbourhood) (x : Nat) : Bool :=
  if n.closed then n.twiceLow ≤ 2 * x && 2 * x ≤ n.twiceHigh
  else n.twiceLow < 2 * x && 2 * x < n.twiceHigh

/-- The multiple of `10 ^ p` inside the interval that is nearest to the value, an even one on a tie. -/
def onGrid (n : Neighbourhood) (p : Nat) : Option Nat :=
  let spacing := Nat.pow 10 p
  let below := n.value / spacing
  let above := below + 1
  match n.contains (below * spacing), n.contains (above * spacing) with
  | true, true => some (roundQuotient n.value spacing)
  | true, false => some below
  | false, true => some above
  | false, false => none

/-- The first grid from `10 ^ p` down that meets the interval, with the point found there. -/
def coarsest (n : Neighbourhood) : Nat → Nat × Nat
  | 0 => (n.value, 0)
  | p + 1 =>
    match n.onGrid (p + 1) with
    | some c => (c, p + 1)
    | none => n.coarsest p

end Neighbourhood

/-- Moves the zeros at the end of `c` into the exponent. -/
def stripZeros (c p : Nat) : Nat × Nat :=
  if 0 < c ∧ c % 10 = 0 then stripZeros (c / 10) (p + 1) else (c, p)

/-- A decimal `coefficient * 10 ^ exponent`. -/
structure Decimal where
  coefficient : Nat
  exponent : Int
  deriving DecidableEq

/-- The digits found on the coarsest grid that meets the interval. -/
def Neighbourhood.shortest (n : Neighbourhood) : Decimal :=
  let (c, p) := n.coarsest ((Nat.toDigits 10 n.value).length - 1)
  let (c, p) := stripZeros c p
  ⟨c, (p : Int) - 1074⟩

def shortest (r : Nat) : Decimal := (Neighbourhood.ofRank r).shortest

end Double

end LoxLex
