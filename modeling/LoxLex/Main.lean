import LoxLex.CommandLine.Run

/-!
# The program

The command line with the real file system and the real streams. At the prompt every line is
answered before the next one is read.
-/

namespace LoxLex.CommandLine

/-- The number of an error, which the system may give with a minus sign. -/
def errorNumber (code : UInt32) : Nat := min code.toNat (-code).toNat

def accessError : IO.Error → AccessError
  | .noFileOrDirectory _ code reason | .inappropriateType _ code reason
  | .permissionDenied _ code reason | .invalidArgument _ code reason
  | .resourceExhausted _ code reason | .noSuchThing _ code reason
  | .otherError code reason | .hardwareFault code reason | .resourceBusy code reason
  | .illegalOperation code reason => .ofNumber (errorNumber code) reason.toList
  | e => .other 0 (toString e).toList

def readFile (path : Text) : IO (Except AccessError Utf8.Bytes) := do
  match ← (IO.FS.readBinFile (String.ofList path)).toBaseIO with
  | .ok bytes => return .ok bytes.toList
  | .error e => return .error (accessError e)

def emit (o : Outcome) : IO UInt32 := do
  IO.print (String.ofList o.stdout)
  IO.eprint (String.ofList o.stderr)
  match o.ending with
  | .exit status => return status.code.toUInt32
  | .nulInPath => return 1

def send (o : Output) : IO Unit := do
  for w in o do
    match w.stream with
    | .standardOutput => IO.print (String.ofList w.text)
    | .standardError => IO.eprint (String.ofList w.text)
    | .memory _ => pure ()

partial def interact (count : Bool) (input : IO.FS.Stream) : IO UInt32 := do
  IO.print (String.ofList promptText)
  (← IO.getStdout).flush
  match Text.lines (← input.getLine).toList with
  | [] =>
    IO.print (String.ofList (promptEnd .closed))
    return 0
  | first :: more =>
    send (turn count first)
    for line in more do
      IO.print (String.ofList promptText)
      send (turn count line)
    interact count input

def program (arguments : List Text) : IO UInt32 := do
  match parse arguments with
  | .error e => emit (usageFailure e)
  | .ok (.scan none count) => interact count (← IO.getStdin)
  | .ok (.scan (some path) count) =>
    let content ← readFile path
    emit (scanScript count path (loadWith (fun _ => content) path))
  | .ok request => emit (perform {} [] .closed request)

end LoxLex.CommandLine

def main (arguments : List String) : IO UInt32 :=
  LoxLex.CommandLine.program (arguments.map String.toList)
