import LoxLex.Text.Basic

/-!
# Diagnostics

A `Diagnostic` is a message about a line, with the code of its fault if it has one. `Fault` lists
the two faults a source text can have.
-/

namespace LoxLex

structure Diagnostic where
  line : Int
  message : Text
  code : Option Text := none
  deriving DecidableEq

namespace Diagnostic

def display (d : Diagnostic) : Text :=
  "[line ".toList ++ Text.decimalInt d.line ++ "] Error: ".toList ++ d.message

end Diagnostic

inductive Fault where
  | unexpectedCharacter (c : Char)
  | unterminatedString
  deriving DecidableEq

namespace Fault

def code : Fault → Text
  | unexpectedCharacter _ => "L001".toList
  | unterminatedString => "L002".toList

def message : Fault → Text
  | unexpectedCharacter c => "Unexpected character: '".toList ++ c :: "'.".toList
  | unterminatedString => "Unterminated string.".toList

/-- The fault codes with what they stand for. -/
def codes : List (Text × Text) :=
  [("L001".toList, "Unexpected character".toList), ("L002".toList, "Unterminated string".toList)]

def diagnostic (f : Fault) (line : Int) : Diagnostic := ⟨line, f.message, some f.code⟩

end Fault

end LoxLex
