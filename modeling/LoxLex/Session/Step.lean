import LoxLex.Session.Registry
import LoxLex.Run

/-!
# Session steps

A session works on scanners, reporters and sinks by name. A `Step` is one thing to do, an `Answer`
what comes of it and a `StepError` why nothing does.
-/

namespace LoxLex

inductive Step where
  | newReporter (name : Text) (level : Level) (stream : Stream)
  | report (reporter : Text) (d : Diagnostic)
  | readDiagnostics (reporter : Text)
  | clear (reporter : Text)
  | printErrors (reporter : Text)
  | setLevel (reporter : Text) (level : Level)
  /-- A scanner that is given no reporter has a silent one of its own. -/
  | newScanner (name : Text) (source : Text) (reporter : Option Text)
  | scanTokens (scanner : Text)
  | scan (scanner : Text)
  | state (scanner : Text)
  | peek (scanner : Text)
  | peekNext (scanner : Text)
  | advance (scanner : Text)
  | accept (scanner : Text) (expected : Text)
  | isAtEnd (scanner : Text)
  | newSink (name : Text) (sink : Sink)
  | receive (sink : Text) (token : Token.Draft)
  | sinkState (sink : Text)
  /-- Without a sink the tokens go to a console on the standard output. -/
  | run (scanner : Text) (sink : Option Text)
  | runSource (source : Text) (sink reporter : Option Text)
  | scanString (source : Text)

inductive Answer where
  | done
  | diagnostic (d : Diagnostic)
  | report (hadError : Bool) (ds : List Diagnostic)
  | tokens (ts : List Token)
  | scan (s : Scan)
  | state (s : Scanner)
  | character (c : Char)
  | truth (b : Bool)
  | count (n : Nat) (last : Option Token)
  deriving DecidableEq

inductive StepError where
  | unknownName (name : Text)
  | endOfSource
  | draft (error : Token.DraftError)
  | lexical (first : Diagnostic)
  deriving DecidableEq

namespace StepError

def message : StepError → Text
  | unknownName name => Text.quoted name
  | endOfSource => "string index out of range".toList
  | draft error => error.message
  | lexical first => first.display

end StepError

/-- What a step comes to, with what it wrote. -/
structure Reply where
  result : Except StepError Answer
  output : Output := []

end LoxLex
