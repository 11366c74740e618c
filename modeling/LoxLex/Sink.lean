import LoxLex.Token.Basic
import LoxLex.Output

/-!
# Sinks

A `Sink` takes the tokens of a scan: a console writes each on a line of its own, a counter keeps
their number and the last of them.
-/

namespace LoxLex

inductive Sink where
  | console (stream : Stream)
  | counting (count : Nat) (last : Option Token)
  deriving DecidableEq

namespace Sink

def counter : Sink := counting 0 none

def receive (s : Sink) (ts : List Token) : Sink × Output :=
  match s with
  | console stream => (s, Output.linesTo stream (ts.map Token.display))
  | counting count last => (counting (count + ts.length) (ts.getLast?.or last), [])

end Sink

end LoxLex
