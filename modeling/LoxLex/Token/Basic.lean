import LoxLex.Token.Kind
import LoxLex.Token.Literal

/-!
# Tokens

A `Token` is a kind, the text it was read from, a value, the line its text starts on and the offset
of its first character. `Token.display` is the line that output shows for it and `Token.describe`
the unambiguous one-line form. `Token.equals` compares all five parts; `equalities` and `distinct`
compare the members of a list, where each equals itself whatever it holds.
-/

namespace LoxLex

structure Token where
  kind : Kind
  lexeme : Text
  literal : Literal := .none
  line : Int := 1
  offset : Int := 0
  deriving DecidableEq

namespace Token

/-- The offset one past the last character. -/
def stop (t : Token) : Int := t.offset + t.lexeme.length

def display (t : Token) : Text :=
  t.kind.name ++ ' ' :: t.lexeme ++ ' ' :: t.literal.display

def describe (t : Token) : Text :=
  "Token(".toList ++ t.kind.name ++ ", ".toList ++ Text.quoted t.lexeme ++ ", ".toList ++
    t.literal.describe ++ ", line=".toList ++ Text.decimalInt t.line ++ [')']

def equals (a b : Token) : Bool :=
  a.kind = b.kind && a.lexeme = b.lexeme && a.literal.equals b.literal && a.line = b.line &&
    a.offset = b.offset

/-- Row `i`, column `j` tells whether members `i` and `j` are equal. -/
def equalities (ts : List Token) : List (List Bool) :=
  ts.zipIdx.map fun (a, i) => ts.zipIdx.map fun (b, j) => i = j || a.equals b

/-- The number of members that equal no earlier one. -/
def distinct (ts : List Token) : Nat :=
  (ts.zipIdx.filter fun (t, i) => (ts.take i).all fun earlier => !earlier.equals t).length

/-- A token that is still to be built, its kind given by name. -/
structure Draft where
  kind : Text
  lexeme : Text
  literal : Literal.Draft := .none
  line : Int := 1
  offset : Int := 0

/-- Why a token could not be built. -/
inductive DraftError where
  | kind (error : Kind.LookupError)
  | literal (error : Literal.DraftError)
  deriving DecidableEq

def DraftError.message : DraftError → Text
  | kind error => error.message
  | literal error => error.message

/-- The token asked for. The value is built before the kind is looked up. -/
def Draft.build (d : Draft) : Except DraftError Token := do
  let literal ← d.literal.build.mapError .literal
  let kind ← (Kind.ofName d.kind).mapError .kind
  return ⟨kind, d.lexeme, literal, d.line, d.offset⟩

end Token

end LoxLex
