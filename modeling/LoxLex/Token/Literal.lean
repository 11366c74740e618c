import LoxLex.Text.Quoted
import LoxLex.Double.Layout

/-!
# Literals

The value a token carries: none, the body of a string or a number. `Literal.display` is the value as
output shows it and `Literal.describe` the unambiguous one-line form. `Literal.Draft` is a value
that is still to be built, from a number of any size.
-/

namespace LoxLex

inductive Literal where
  | none
  | text (body : Text)
  | number (value : Double)
  deriving DecidableEq

namespace Literal

/-- The kinds of value with their codes. -/
def kinds : List (Text × Nat) :=
  [("NONE".toList, 1), ("TEXT".toList, 2), ("NUMBER".toList, 3)]

def isNone : Literal → Bool
  | none => true
  | _ => false

def display : Literal → Text
  | none => "null".toList
  | text body => body
  | number value => value.display

def describe : Literal → Text
  | none => "Literal.none()".toList
  | text body => "Literal.text(".toList ++ Text.quoted body ++ [')']
  | number value => "Literal.number(".toList ++ value.display ++ [')']

/-- Equality of values: numbers are compared as numbers. -/
def equals : Literal → Literal → Bool
  | none, none => true
  | text a, text b => a = b
  | number x, number y => x.equals y
  | _, _ => false

inductive Draft where
  | none
  | text (body : Text)
  | double (value : Double)
  | integer (value : Int)

/-- Why a value could not be built. -/
inductive DraftError where
  | numberTooLarge
  deriving DecidableEq

def DraftError.message : DraftError → Text
  | numberTooLarge => "int too large to convert to float".toList

/-- The value asked for. An integer is refused if it has no finite value to round to. -/
def Draft.build : Draft → Except DraftError Literal
  | none => .ok .none
  | text body => .ok (.text body)
  | double value => .ok (.number value)
  | integer value =>
    (Double.ofInt? value).elim (.error .numberTooLarge) fun x => .ok (.number x)

end Literal

end LoxLex
