import LoxLex.Text.Basic
import LoxLex.Double.Shortest

/-!
# Numbers as text

`Double.display` writes a value with its shortest digits. Leading digits worth `10 ^ -4` up to
`10 ^ 15` are written positionally with at least one digit on each side of the point; all others
with an exponent that has a sign and at least two digits.
-/

namespace LoxLex

namespace Double

/-- Whether a number is written without an exponent if its first digit is worth `10 ^ e`. -/
def isPositional (e : Int) : Bool := -4 ≤ e && e < 16

/-- Digits with the point after the first `e + 1` of them. -/
def positional (digits : Text) (e : Int) : Text :=
  if e < 0 then
    '0' :: '.' :: List.replicate (-e - 1).toNat '0' ++ digits
  else
    let whole := e.toNat + 1
    let fraction := digits.drop whole
    digits.take whole ++ List.replicate (whole - digits.length) '0' ++
      '.' :: (if fraction = [] then ['0'] else fraction)

/-- A sign and at least two digits. -/
def exponentText (e : Int) : Text :=
  let digits := Text.decimal e.natAbs
  (if e < 0 then '-' else '+') :: List.replicate (2 - digits.length) '0' ++ digits

def scientific (digits : Text) (e : Int) : Text :=
  let fraction := digits.drop 1
  digits.take 1 ++ (if fraction = [] then [] else '.' :: fraction) ++ 'e' :: exponentText e

namespace Decimal

def display (d : Decimal) : Text :=
  let digits := Text.decimal d.coefficient
  let e := d.exponent + digits.length - 1
  if isPositional e then positional digits e else scientific digits e

end Decimal

def displayMagnitude (r : Nat) : Text :=
  if r = 0 then "0.0".toList
  else if r < infinityRank then (shortest r).display
  else "inf".toList

def display : Double → Text
  | number negative rank => (if negative then ['-'] else []) ++ displayMagnitude rank
  | nan => "nan".toList

end Double

end LoxLex
