import LoxLex.Piece.Split

/-!
# Scanning

`scan` reads a source text into its tokens and the diagnostics of its faults; it never fails.
Both come from the pieces of the text, each `Placed` at its offset and line. The token of the end of
the input comes last. `scanFrom` scans a text that stands after others, at a given offset and line.
-/

namespace LoxLex

/-- A piece with the offset of its first character and the line on which it starts. -/
structure Placed where
  offset : Nat
  line : Nat
  piece : Piece
  deriving DecidableEq

namespace Placed

/-- The line after the piece. -/
def endLine (p : Placed) : Nat := p.line + Text.newlines p.piece.text

def token? (p : Placed) : Option Token :=
  p.piece.token?.map fun (kind, literal) => ⟨kind, p.piece.text, literal, p.line, p.offset⟩

/-- A fault is noticed at the end of its piece. -/
def diagnostic? (p : Placed) : Option Diagnostic :=
  p.piece.fault?.map fun fault => fault.diagnostic p.endLine

end Placed

/-- The pieces one after the other, the first at the given offset and line. -/
def place (offset line : Nat) : List Piece → List Placed
  | [] => []
  | p :: ps =>
    ⟨offset, line, p⟩ :: place (offset + p.text.length) (line + Text.newlines p.text) ps

/-- The outcome of a scan; `line` is the last line of the text. -/
structure Scan where
  tokens : List Token
  diagnostics : List Diagnostic
  line : Nat
  deriving DecidableEq

def Scan.hasErrors (s : Scan) : Bool := !s.diagnostics.isEmpty

def endToken (offset line : Nat) : Token := ⟨.endOfInput, [], .none, line, offset⟩

/-- What the pieces of a text that ends at `stop` on `line` amount to. -/
def Scan.ofPlaced (placed : List Placed) (stop line : Nat) : Scan where
  tokens := placed.filterMap Placed.token? ++ [endToken stop line]
  diagnostics := placed.filterMap Placed.diagnostic?
  line := line

def scanFrom (offset line : Nat) (t : Text) : Scan :=
  Scan.ofPlaced (place offset line (pieces t)) (offset + t.length) (line + Text.newlines t)

def scan (source : Text) : Scan := scanFrom 0 1 source

/-- The tokens of a text that must be free of faults, or the first diagnostic. -/
def scanStrict (source : Text) : Except Diagnostic (List Token) :=
  let result := scan source
  match result.diagnostics with
  | [] => .ok result.tokens
  | d :: _ => .error d

end LoxLex
