import LoxLex.Token.Basic
import LoxLex.Diagnostic

/-!
# Pieces of source text

A source text is a sequence of pieces, and every character belongs to one of them. `Piece.text` is
what a piece looks like in the source, `Piece.token?` the kind and value of the token it stands for
and `Piece.fault?` what is wrong with it. Blanks and comments stand for nothing.
-/

namespace LoxLex

/-- The digits of a number; the fraction is empty if the number has no point. -/
structure Numeral where
  whole : Text
  fraction : Text
  deriving DecidableEq

namespace Numeral

def text (n : Numeral) : Text :=
  if n.fraction = [] then n.whole else n.whole ++ '.' :: n.fraction

/-- The binary64 value nearest to the number that is written. -/
def value (n : Numeral) : Double :=
  Double.nearest (Nat.ofDigitChars 10 (n.whole ++ n.fraction) 0) (Nat.pow 10 n.fraction.length)

end Numeral

inductive Piece where
  | symbol (s : Symbol)
  /-- Two slashes and `body`. -/
  | comment (body : Text)
  | blank (c : Char)
  /-- The double quotes around `body`. -/
  | quoted (body : Text)
  /-- A double quote and `body`, which holds no other one. -/
  | unclosed (body : Text)
  | numeral (n : Numeral)
  | word (w : Text)
  | foreign (c : Char)
  deriving DecidableEq

namespace Piece

def text : Piece → Text
  | symbol s => s.spelling
  | comment body => '/' :: '/' :: body
  | blank c => [c]
  | quoted body => '"' :: body ++ ['"']
  | unclosed body => '"' :: body
  | numeral n => n.text
  | word w => w
  | foreign c => [c]

def token? : Piece → Option (Kind × Literal)
  | symbol s => some (.symbol s, .none)
  | quoted body => some (.string, .text body)
  | numeral n => some (.number, .number n.value)
  | word w => some (Kind.ofWord w, .none)
  | comment _ | blank _ | unclosed _ | foreign _ => none

def fault? : Piece → Option Fault
  | unclosed _ => some .unterminatedString
  | foreign c => some (.unexpectedCharacter c)
  | symbol _ | comment _ | blank _ | quoted _ | numeral _ | word _ => none

theorem token?_eq_none_or_fault?_eq_none (p : Piece) : p.token? = none ∨ p.fault? = none := by
  cases p <;> simp [token?, fault?]

end Piece

end LoxLex
