import LoxLex.Text.Basic
import LoxLex.Text.Printable

/-!
# Quoted text

`quoted` writes a text on one line. The mark is a single quote unless the text holds one and no
double quote. The mark in use and the backslash get a backslash, and every character that is not
printable is written by its code.
-/

namespace LoxLex.Text

def quoteMark (t : Text) : Char := if '\'' ∈ t ∧ '"' ∉ t then '"' else '\''

/-- The code of a character in the narrowest of the forms `\xhh`, `\uhhhh` and `\Uhhhhhhhh`. -/
def codeEscape (c : Char) : Text :=
  let n := c.toNat
  if n < 0x100 then '\\' :: 'x' :: hexDigits 2 n
  else if n < 0x10000 then '\\' :: 'u' :: hexDigits 4 n
  else '\\' :: 'U' :: hexDigits 8 n

def escape (mark c : Char) : Text :=
  if c = mark ∨ c = '\\' then ['\\', c]
  else if c = '\n' then ['\\', 'n']
  else if c = '\r' then ['\\', 'r']
  else if c = '\t' then ['\\', 't']
  else if isPrintable c then [c]
  else codeEscape c

def quoted (t : Text) : Text :=
  let mark := quoteMark t
  mark :: t.flatMap (escape mark) ++ [mark]

end LoxLex.Text
