import LoxLex.Text.Quoted
import LoxLex.Text.DecimalDigit

/-!
# Command line arguments

`Argument.of` tells what an argument is: an option by a name, perhaps abbreviated and with a value
attached, or a plain argument. `Argument.ofList` does so for a whole command line, where every
argument after the first `--` is plain. `Argument.checkValue` refuses attached values, which no
option takes; letters of other options behind a letter are no value.
-/

namespace LoxLex.CommandLine

inductive Flag where
  | help
  | count
  | version
  deriving DecidableEq

namespace Flag

/-- The long names in the order in which they are listed. -/
def longNames : List (Text × Flag) :=
  [("--help".toList, help), ("--count".toList, count), ("--version".toList, version)]

def shortNames : List (Char × Flag) := [('h', help), ('v', version)]

/-- All names of the option. -/
def label : Flag → Text
  | help => "-h/--help".toList
  | count => "--count".toList
  | version => "-v/--version".toList

def longName : Flag → Text
  | help => "--help".toList
  | count => "--count".toList
  | version => "--version".toList

def ofName? (name : Text) : Option Flag :=
  match name with
  | ['-', c] => shortNames.lookup c
  | _ => longNames.lookup name

end Flag

inductive UsageError where
  | ambiguous (argument : Text) (candidates : List Flag)
  | ignoredValue (flag : Flag) (value : Text)
  | unrecognized (arguments : List Text)
  deriving DecidableEq

namespace UsageError

def message : UsageError → Text
  | ambiguous argument candidates =>
    "ambiguous option: ".toList ++ argument ++ " could match ".toList ++
      Text.joinWith ", ".toList (candidates.map Flag.longName)
  | ignoredValue flag value =>
    "argument ".toList ++ flag.label ++ ": ignored explicit argument ".toList ++ Text.quoted value
  | unrecognized arguments =>
    "unrecognized arguments: ".toList ++ Text.joinWith [' '] arguments

end UsageError

inductive Argument where
  | plain (text : Text)
  /-- An option by a long name, with what stands behind its equals sign. -/
  | long (flag : Flag) (value : Option Text)
  /-- An option by its letter, with what follows the letter. -/
  | short (flag : Flag) (value : Option Text)
  | unknown (text : Text)
  /-- The first `--`. -/
  | separator
  deriving DecidableEq

/-- The text before the first equals sign, and the text behind it if there is one. -/
def cutAtEquals (t : Text) : Text × Option Text :=
  match t.dropWhile (· ≠ '=') with
  | [] => (t, none)
  | _ :: value => (t.takeWhile (· ≠ '='), some value)

/-- A minus sign and decimal digits, perhaps with a point that has a digit behind it. One line end
after them does no harm. -/
def isNegativeNumber (t : Text) : Bool :=
  match t with
  | '-' :: rest =>
    let body := if rest.getLast? = some '\n' then rest.dropLast else rest
    match body.dropWhile Text.isDecimalDigit with
    | [] => !body.isEmpty
    | '.' :: fraction => !fraction.isEmpty && fraction.all Text.isDecimalDigit
    | _ => false
  | _ => false

namespace Argument

/-- What an argument is that starts with a minus sign but is no name of an option. -/
def ofUnnamed (t : Text) : Argument :=
  if isNegativeNumber t ∨ ' ' ∈ t then plain t else unknown t

/-- An option whose name is spelled out. -/
def ofName (name : Text) (value : Option Text) : Option Argument :=
  (Flag.ofName? name).map fun flag =>
    if (name.drop 1).head? = some '-' then long flag value else short flag value

/-- An option by the start of a long name. -/
def ofAbbreviation (t : Text) : Except UsageError Argument :=
  let (start, value) := cutAtEquals t
  match (Flag.longNames.filter fun entry => start.isPrefixOf entry.1).map Prod.snd with
  | [] => .ok (ofUnnamed t)
  | [flag] => .ok (long flag value)
  | candidates => .error (.ambiguous t candidates)

/-- An option by its letter with more text behind it. -/
def ofLetter (c : Char) (rest : Text) : Argument :=
  match Flag.shortNames.lookup c with
  | some flag => short flag (some rest)
  | none => ofUnnamed ('-' :: c :: rest)

def of (t : Text) : Except UsageError Argument :=
  match t with
  | '-' :: c :: rest =>
    let (name, value) := cutAtEquals t
    match ofName t none, ofName name value with
    | some a, _ => .ok a
    | none, some a => .ok a
    | none, none => if c = '-' then ofAbbreviation t else .ok (ofLetter c rest)
  | _ => .ok (plain t)

/-- All arguments up to `--` by what they are; those behind it are plain. -/
def ofList (ts : List Text) : Except UsageError (List Argument) := do
  let named := ts.takeWhile (· ≠ "--".toList)
  let rest :=
    match ts.dropWhile (· ≠ "--".toList) with
    | [] => []
    | _ :: behind => separator :: behind.map plain
  return (← named.mapM of) ++ rest

/-- Letters behind a letter are options too; `value` must hold nothing else. -/
def checkLetters (flag : Flag) (value : Text) : Except UsageError Unit :=
  match value with
  | [] => .ok ()
  | c :: rest =>
    match Flag.shortNames.lookup c with
    | some next => checkLetters next rest
    | none => .error (.ignoredValue flag value)

/-- No option takes a value. -/
def checkValue : Argument → Except UsageError Unit
  | long flag (some value) => .error (.ignoredValue flag value)
  | short flag (some value) =>
    if value = [] then .error (.ignoredValue flag value) else checkLetters flag value
  | _ => .ok ()

end Argument

end LoxLex.CommandLine
