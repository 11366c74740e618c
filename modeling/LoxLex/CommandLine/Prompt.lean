import LoxLex.CommandLine.Script
import LoxLex.Text.Lines

/-!
# The prompt

`prompt` asks for one line of the input after the other and scans each before it asks for the next.
A `turn` is what a line is answered with: it has a scanner, a reporter and a sink of its own, and
faults do not end the session.
-/

namespace LoxLex.CommandLine

def promptText : Text := "> ".toList

/-- The answer to one line. -/
def turn (count : Bool) (line : Text) : Output :=
  let r := (Scanner.ofSource line).runWith {} (sinkFor count)
  r.output ++ [⟨.standardOutput, summary r.scanner.line r.sink⟩]

/-- How the input at the prompt ends. -/
inductive InputEnd where
  | closed
  | interrupted
  deriving DecidableEq

/-- The last prompt finds no line, however the input ends. -/
def promptEnd : InputEnd → Text
  | .closed | .interrupted => ['\n']

/-- What is written from one prompt on, with the lines that are still to come. -/
def converse (count : Bool) (inputEnd : InputEnd) : List Text → Output
  | [] => [⟨.standardOutput, promptText⟩, ⟨.standardOutput, promptEnd inputEnd⟩]
  | line :: rest =>
    ⟨.standardOutput, promptText⟩ :: turn count line ++ converse count inputEnd rest

def prompt (count : Bool) (input : Text) (inputEnd : InputEnd) : Outcome :=
  let written := converse count inputEnd (Text.lines input)
  { stdout := Output.on .standardOutput written
    stderr := Output.on .standardError written }

end LoxLex.CommandLine
