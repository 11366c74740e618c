import LoxLex.Session.Step

/-!
# Sessions

A `Session` is the scanners, reporters and sinks that have been made so far. `Session.step` does one
step and `Session.answers` a list of them; a step that fails changes nothing and the session goes
on. Scanners keep the reporter they were made with, so reporters are numbered and a name stands for
a number.
-/

namespace LoxLex

/-- A scanner with the number of the reporter it was given. -/
structure Watched where
  scanner : Scanner
  reporter : Option Nat

structure Session where
  reporters : List Reporter := []
  reporterNumbers : Registry Nat := {}
  scanners : Registry Watched := {}
  sinks : Registry Sink := {}

namespace Session

/-- The reporter of a number; a silent one stands in for none. -/
def reporterAt (s : Session) (number : Option Nat) : Reporter :=
  (number.bind fun n => s.reporters[n]?).getD .silent

def setReporter (s : Session) (number : Option Nat) (r : Reporter) : Session :=
  match number with
  | some n => { s with reporters := s.reporters.set n r }
  | none => s

/-- Something found by its name. -/
def find {α : Type} (r : Registry α) (name : Text) : Except StepError α :=
  match r.find? name with
  | some x => .ok x
  | none => .error (.unknownName name)

/-- The number of the reporter that a name, if there is one, stands for. -/
def reporterNumber (s : Session) : Option Text → Except StepError (Option Nat)
  | some name => do return some (← find s.reporterNumbers name)
  | none => .ok none

def sinkNamed (s : Session) : Option Text → Except StepError Sink
  | some name => find s.sinks name
  | none => .ok (.console .standardOutput)

def setSink (s : Session) (name : Option Text) (sink : Sink) : Session :=
  match name with
  | some name => { s with sinks := s.sinks.put name sink }
  | none => s

def setScanner (s : Session) (name : Text) (w : Watched) : Session :=
  { s with scanners := s.scanners.put name w }

/-- What a step makes of a session. -/
structure Effect where
  session : Session
  answer : Answer := .done
  output : Output := []

def onReporter (s : Session) (name : Text) (f : Reporter → Reporter × Answer × Output) :
    Except StepError Effect := do
  let number ← find s.reporterNumbers name
  let (r, answer, output) := f (s.reporterAt number)
  return { session := s.setReporter number r, answer, output }

def onScanner (s : Session) (name : Text) (f : Scanner → Except StepError (Scanner × Answer)) :
    Except StepError Effect := do
  let w ← find s.scanners name
  let (scanner, answer) ← f w.scanner
  return { session := s.setScanner name { w with scanner }, answer }

/-- Lets a scanner finish under its own reporter. -/
def onFinished (s : Session) (name : Text) (f : Scanner → Answer) : Except StepError Effect := do
  let w ← find s.scanners name
  let (scanner, reporter, output) := (s.reporterAt w.reporter).watch w.scanner
  return {
    session := (s.setScanner name { w with scanner }).setReporter w.reporter reporter
    answer := f scanner
    output }

def runScanner (s : Session) (name : Text) (sinkName : Option Text) : Except StepError Effect := do
  let w ← find s.scanners name
  let sink ← s.sinkNamed sinkName
  let r := w.scanner.runWith (s.reporterAt w.reporter) sink
  let session := (s.setScanner name { w with scanner := r.scanner }).setReporter w.reporter r.reporter
  return {
    session := session.setSink sinkName r.sink
    answer := .scan r.scanner.result
    output := r.output }

def runSource (s : Session) (source : Text) (sinkName reporterName : Option Text) :
    Except StepError Effect := do
  let number ← s.reporterNumber reporterName
  let sink ← s.sinkNamed sinkName
  let r := (Scanner.ofSource source).runWith (s.reporterAt number) sink
  return {
    session := (s.setReporter number r.reporter).setSink sinkName r.sink
    answer := .scan r.scanner.result
    output := r.output }

def effect (s : Session) : Step → Except StepError Effect
  | .newReporter name level stream =>
    return {
      session := { s with
        reporters := s.reporters ++ [{ level, stream }]
        reporterNumbers := s.reporterNumbers.put name s.reporters.length } }
  | .report name d =>
    s.onReporter name fun r => let (r, output) := r.report [d]; (r, .diagnostic d, output)
  | .readDiagnostics name => s.onReporter name fun r => (r, .report r.hadError r.diagnostics, [])
  | .clear name => s.onReporter name fun r => (r.clear, .done, [])
  | .printErrors name => s.onReporter name fun r => (r, .done, r.printErrors)
  | .setLevel name level => s.onReporter name fun r => ({ r with level }, .done, [])
  | .newScanner name source reporter => do
    return { session := s.setScanner name ⟨.ofSource source, ← s.reporterNumber reporter⟩ }
  | .scanTokens name => s.onFinished name fun scanner => .tokens scanner.tokens
  | .scan name => s.onFinished name fun scanner => .scan scanner.result
  | .state name => s.onScanner name fun scanner => .ok (scanner, .state scanner)
  | .peek name => s.onScanner name fun scanner => .ok (scanner, .character scanner.peek)
  | .peekNext name => s.onScanner name fun scanner => .ok (scanner, .character scanner.peekNext)
  | .advance name => s.onScanner name fun scanner =>
    match scanner.advance? with
    | some (c, scanner) => .ok (scanner, .character c)
    | none => .error .endOfSource
  | .accept name expected => s.onScanner name fun scanner =>
    let (accepted, scanner) := scanner.accept expected
    .ok (scanner, .truth accepted)
  | .isAtEnd name => s.onScanner name fun scanner => .ok (scanner, .truth scanner.isAtEnd)
  | .newSink name sink => return { session := s.setSink (some name) sink }
  | .receive name draft => do
    let sink ← find s.sinks name
    let token ← draft.build.mapError .draft
    let (sink, output) := sink.receive [token]
    return { session := s.setSink (some name) sink, output }
  | .sinkState name => do
    match ← find s.sinks name with
    | .counting count last => return { session := s, answer := .count count last }
    | .console _ => return { session := s }
  | .run name sinkName => s.runScanner name sinkName
  | .runSource source sinkName reporterName => s.runSource source sinkName reporterName
  | .scanString source => do
    let tokens ← (scanStrict source).mapError .lexical
    return { session := s, answer := .tokens tokens }

def step (s : Session) (action : Step) : Session × Reply :=
  match s.effect action with
  | .ok e => (e.session, ⟨.ok e.answer, e.output⟩)
  | .error e => (s, ⟨.error e, []⟩)

/-- The replies to a list of steps. -/
def replies (s : Session) : List Step → List Reply
  | [] => []
  | a :: rest =>
    let (next, reply) := s.step a
    reply :: next.replies rest

end Session

end LoxLex
