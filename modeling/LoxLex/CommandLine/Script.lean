import LoxLex.CommandLine.Outcome
import LoxLex.SourceFile
import LoxLex.Run

/-!
# Scanning a script

`scanSource` prints the tokens of a source text, or only their number, and its diagnostics.
`scanScript` does so for a file, or says why it could not be read.
-/

namespace LoxLex.CommandLine

/-- Tokens are printed, or only counted. -/
def sinkFor (count : Bool) : Sink := if count then .counter else .console .standardOutput

/-- The line that a counter leaves at the end. -/
def summary (lines : Nat) : Sink → Text
  | .counting n _ =>
    Text.decimal n ++ " tokens, ".toList ++ Text.decimal lines ++ " lines\n".toList
  | .console _ => []

def scanSource (count : Bool) (source : Text) : Outcome :=
  let r := (Scanner.ofSource source).runWith {} (sinkFor count)
  { stdout := Output.on .standardOutput r.output ++ summary r.scanner.line r.sink
    stderr := Output.on .standardError r.output
    ending := .exit (if r.scanner.hasErrors then .dataError else .success) }

def loadFailure (path : Text) (e : LoadError) : Outcome :=
  let complaint (verb : Text) (status : ExitStatus) : Outcome :=
    { stderr := "Error ".toList ++ verb ++ " file '".toList ++ path ++ "': ".toList ++
        e.message path ++ ['\n']
      ending := .exit status }
  match e with
  | .nulInPath => { ending := .nulInPath }
  | .unreadable _ => complaint "reading".toList .noInput
  | .undecodable _ => complaint "decoding".toList .dataError

def scanScript (count : Bool) (path : Text) (source : Except LoadError Text) : Outcome :=
  match source with
  | .error e => loadFailure path e
  | .ok source => scanSource count source

end LoxLex.CommandLine
