import LoxLex.CommandLine.Prompt

/-!
# The command line program

`run` is the whole program as a function of its arguments, the files it can see and its input.
-/

namespace LoxLex.CommandLine

def perform (files : FileTree) (input : Text) (inputEnd : InputEnd) : Request → Outcome
  | .help => { stdout := helpText }
  | .version => { stdout := versionText }
  | .scan (some path) count => scanScript count path (load files path)
  | .scan none count => prompt count input inputEnd

/-- The whole program: nothing is read before the arguments are in order. -/
def run (arguments : List Text) (files : FileTree) (input : Text) (inputEnd : InputEnd) :
    Outcome :=
  match parse arguments with
  | .error e => usageFailure e
  | .ok request => perform files input inputEnd request

variable {arguments : List Text}

theorem run_of_parse_error {e : UsageError} (h : parse arguments = .error e) (files : FileTree)
    (input : Text) (inputEnd : InputEnd) :
    run arguments files input inputEnd = usageFailure e := by
  rw [run, h]

theorem run_of_parse_ok {request : Request} (h : parse arguments = .ok request) (files : FileTree)
    (input : Text) (inputEnd : InputEnd) :
    run arguments files input inputEnd = perform files input inputEnd request := by
  rw [run, h]

end LoxLex.CommandLine
