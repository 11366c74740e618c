import LoxLex.CommandLine.Request

/-!
# Outcomes

An `Outcome` is all that can be seen of the program: both output streams and how it ends. Here are
the outcomes that hang on the command line alone: the help, the version and a usage error.
-/

namespace LoxLex.CommandLine

inductive ExitStatus where
  | success
  | usage
  | dataError
  | noInput
  deriving DecidableEq

namespace ExitStatus

def code : ExitStatus → Nat
  | success => 0
  | usage => 64
  | dataError => 65
  | noInput => 66

def failures : List ExitStatus := [usage, dataError, noInput]

end ExitStatus

inductive Ending where
  | exit (status : ExitStatus)
  /-- The path of the script holds a NUL, which nothing handles. -/
  | nulInPath
  deriving DecidableEq

structure Outcome where
  stdout : Text := []
  stderr : Text := []
  ending : Ending := .exit .success
  deriving DecidableEq

def programName : Text := "lox".toList

def version : Text := "0.1.0-alpha".toList

def versionText : Text := programName ++ ' ' :: version ++ ['\n']

def usageText : Text := "usage: ".toList ++ programName ++ " [-h] [--count] [-v] [script]\n".toList

def helpLines : List String :=
  ["",
    "Lox scanner",
    "",
    "positional arguments:",
    "  script         Lox source file to scan",
    "",
    "options:",
    "  -h, --help     show this help message and exit",
    "  --count        Print token and line counts instead of the tokens",
    "  -v, --version  show program's version number and exit",
    "",
    "Examples:",
    "  lox                    # Start the prompt",
    "  lox script.lox         # Print the tokens of a file",
    "  lox --count script.lox # Print only the token and line counts",
    "        "]

def helpText : Text := usageText ++ helpLines.flatMap fun l => l.toList ++ ['\n']

def usageFailure (e : UsageError) : Outcome where
  stderr := usageText ++ programName ++ ": error: ".toList ++ e.message ++ ['\n']
  ending := .exit .usage

end LoxLex.CommandLine
