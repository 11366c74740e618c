/-!
# Sets of code points

A table of a Unicode property is a list of ranges, both ends included, in increasing order.
-/

namespace LoxLex

structure CodePointRange where
  first : Nat
  last : Nat

namespace CodePointRange

def contains (r : CodePointRange) (c : Char) : Bool := r.first ≤ c.toNat && c.toNat ≤ r.last

end CodePointRange

end LoxLex
