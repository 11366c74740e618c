import LoxLex.Diagnostic
import LoxLex.Output

/-!
# Reporters

A `Reporter` records every diagnostic it is given and, unless its level is `Level.silent`, writes it
to its stream at once.
-/

namespace LoxLex

/-- How much a reporter writes. Any number is a level, and only one of them is silent. -/
abbrev Level := Int

namespace Level

def silent : Level := 1

def error : Level := 2

def named : List (Text × Level) := [("SILENT".toList, silent), ("ERROR".toList, error)]

end Level

structure Reporter where
  level : Level := Level.error
  stream : Stream := .standardError
  diagnostics : List Diagnostic := []
  deriving DecidableEq

namespace Reporter

def silent : Reporter := { level := Level.silent }

def hadError (r : Reporter) : Bool := !r.diagnostics.isEmpty

/-- The diagnostics as lines on the reporter's stream. -/
def write (r : Reporter) (ds : List Diagnostic) : Output :=
  Output.linesTo r.stream (ds.map Diagnostic.display)

def report (r : Reporter) (ds : List Diagnostic) : Reporter × Output :=
  ({ r with diagnostics := r.diagnostics ++ ds },
    if r.level = Level.silent then [] else r.write ds)

def clear (r : Reporter) : Reporter := { r with diagnostics := [] }

/-- Everything on record, whatever the level. -/
def printErrors (r : Reporter) : Output := r.write r.diagnostics

end Reporter

end LoxLex
