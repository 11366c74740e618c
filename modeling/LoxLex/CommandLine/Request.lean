import LoxLex.CommandLine.Argument

/-!
# Requests

`parse` makes a `Request` of an argument list. The arguments act from left to right: an option that
prints something decides the request at once, the first plain argument is the script, and what
nobody has asked for is complained about at the end.
-/

namespace LoxLex.CommandLine

/-- What the command line asks for. -/
inductive Request where
  | help
  | version
  | scan (script : Option Text) (count : Bool)
  deriving DecidableEq

/-- What has been read: the script, whether it was the last argument, and what is left over. -/
structure Progress where
  script : Option Text := none
  afterScript : Bool := false
  count : Bool := false
  surplus : List Text := []

namespace Progress

/-- A plain argument is the script if there is none yet. -/
def plain (p : Progress) (t : Text) : Progress :=
  match p.script with
  | none => { p with script := some t, afterScript := true }
  | some _ => { p with afterScript := false, surplus := p.surplus ++ [t] }

def unknown (p : Progress) (t : Text) : Progress :=
  { p with afterScript := false, surplus := p.surplus ++ [t] }

/-- The separator goes with the script it stands next to; else it is left over itself. -/
def separator (p : Progress) : Progress :=
  if p.script = none ∨ p.afterScript then { p with afterScript := false }
  else { p with surplus := p.surplus ++ ["--".toList] }

def finish (p : Progress) : Except UsageError Request :=
  if p.surplus = [] then .ok (.scan (p.script.filter (· ≠ [])) p.count)
  else .error (.unrecognized p.surplus)

end Progress

/-- The arguments one after the other. -/
def interpret (p : Progress) : List Argument → Except UsageError Request
  | [] => p.finish
  | a :: rest => do
    a.checkValue
    match a with
    | .plain t => interpret (p.plain t) rest
    | .unknown t => interpret (p.unknown t) rest
    | .separator => interpret p.separator rest
    | .long flag _ | .short flag _ =>
      match flag with
      | .help => return .help
      | .version => return .version
      | .count => interpret { p with afterScript := false, count := true } rest

def parse (arguments : List Text) : Except UsageError Request := do
  interpret {} (← Argument.ofList arguments)

end LoxLex.CommandLine
