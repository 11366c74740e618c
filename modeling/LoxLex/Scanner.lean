import LoxLex.Scan

/-!
# Scanners

A `Scanner` holds one source text, a cursor into it and what has been found in it so far. Before the
scan the cursor can be moved by hand, with `advance?` and `accept`; `scanAll` then reads the text
from the cursor to its end, once. `step` reads a single piece. `Scanner.Valid` bounds the cursor.
-/

namespace LoxLex

/-- `start` and `startLine` say where the last piece begins, `current` and `line` where it ends. -/
structure Scanner where
  source : Text
  start : Nat := 0
  startLine : Nat := 1
  current : Nat := 0
  line : Nat := 1
  tokens : List Token := []
  errors : List Diagnostic := []
  finished : Bool := false
  deriving DecidableEq

namespace Scanner

def ofSource (source : Text) : Scanner := { source }

def Valid (s : Scanner) : Prop := s.start ≤ s.current ∧ s.current ≤ s.source.length

def isAtEnd (s : Scanner) : Bool := s.source.length ≤ s.current

/-- What stands for the character after the last one. -/
def endMark : Char := '\x00'

def peek (s : Scanner) : Char := s.source[s.current]?.getD endMark

def peekNext (s : Scanner) : Char := s.source[s.current + 1]?.getD endMark

/-- Takes one character; none at the end. -/
def advance? (s : Scanner) : Option (Char × Scanner) :=
  s.source[s.current]?.map fun c => (c, { s with current := s.current + 1 })

/-- Takes the next character if it is all of `expected`. -/
def accept (s : Scanner) (expected : Text) : Bool × Scanner :=
  match s.source[s.current]? with
  | some c => if expected = [c] then (true, { s with current := s.current + 1 }) else (false, s)
  | none => (false, s)

def remaining (s : Scanner) : Text := s.source.drop s.current

/-- Reads the piece at the cursor; nothing happens at the end. -/
def step (s : Scanner) : Scanner :=
  match s.remaining with
  | [] => s
  | c :: rest =>
    let placed : Placed := ⟨s.current, s.line, (Piece.split c rest).1⟩
    { s with
      start := s.current
      startLine := s.line
      current := s.current + placed.piece.text.length
      line := placed.endLine
      tokens := s.tokens ++ placed.token?.toList
      errors := s.errors ++ placed.diagnostic?.toList }

/-- Reads all pieces from the cursor on and closes the tokens with the end token. A scanner that
has done so stays as it is. The second part holds the diagnostics of the faults found. -/
def scanAll (s : Scanner) : Scanner × List Diagnostic :=
  if s.finished then (s, [])
  else
    let placed := place s.current s.line (pieces s.remaining)
    let found := Scan.ofPlaced placed s.source.length (s.line + Text.newlines s.remaining)
    let last := placed.getLast?
    ({ s with
        start := (last.map Placed.offset).getD s.start
        startLine := (last.map Placed.line).getD s.startLine
        current := s.source.length
        line := found.line
        tokens := s.tokens ++ found.tokens
        errors := s.errors ++ found.diagnostics
        finished := true },
      found.diagnostics)

def result (s : Scanner) : Scan := ⟨s.tokens, s.errors, s.line⟩

def hasErrors (s : Scanner) : Bool := !s.errors.isEmpty

end Scanner

end LoxLex
