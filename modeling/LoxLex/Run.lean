import LoxLex.Scanner
import LoxLex.Reporter
import LoxLex.Sink

/-!
# Runs

A run scans a source, reports the faults that the scan finds and hands every token to a sink. The
diagnostics are written before the first token. Running a scanner that has finished hands its
tokens over once more and reports nothing.
-/

namespace LoxLex

/-- Everything that takes part in a run as it is afterwards, with what was written. -/
structure Run where
  scanner : Scanner
  reporter : Reporter
  sink : Sink
  output : Output

namespace Reporter

/-- Lets the scanner finish and reports what it finds. -/
def watch (r : Reporter) (s : Scanner) : Scanner × Reporter × Output :=
  let (s, found) := s.scanAll
  (s, r.report found)

end Reporter

namespace Scanner

def runWith (s : Scanner) (reporter : Reporter) (sink : Sink) : Run :=
  let (scanner, reporter, diagnostics) := reporter.watch s
  let (sink, tokens) := sink.receive scanner.tokens
  { scanner, reporter, sink, output := diagnostics ++ tokens }

end Scanner

end LoxLex
