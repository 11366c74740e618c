import LoxLex.Main
import LoxLex.Session.Basic
import LoxLex.Proofs.Piece.Stops
import LoxLex.Proofs.Piece.Stand
import LoxLex.Proofs.Scan.Lines
import LoxLex.Proofs.Scan.Unclosed
import LoxLex.Proofs.Grammar.Lexeme
import LoxLex.Proofs.Grammar.LongestMatch
import LoxLex.Proofs.Scan.Rendering
import LoxLex.Proofs.Scan.Lookahead
import LoxLex.Proofs.Scan.Concatenation
import LoxLex.Proofs.Scan.Cut
import LoxLex.Proofs.Scan.Recovery
import LoxLex.Proofs.Scan.OpenString
import LoxLex.Proofs.Scan.LineBreak
import LoxLex.Proofs.Text.Lines
import LoxLex.Proofs.Text.Utf8.Decode
import LoxLex.Proofs.SourceFile
import LoxLex.Proofs.CommandLine.Script
import LoxLex.Proofs.CommandLine.Prompt
import LoxLex.Proofs.Scanner.Phases
import LoxLex.Proofs.Session.OneScanner
import LoxLex.Proofs.Session.LifeCycle
import LoxLex.Proofs.Scan.Order
import LoxLex.Proofs.Scanner.Cursor
import LoxLex.Proofs.Reporter.Log
import LoxLex.Proofs.Session.Traffic
import LoxLex.Proofs.Session.Transcript
import LoxLex.Proofs.Session.Scanners
import LoxLex.Proofs.Session.Isolation
import LoxLex.Proofs.Session.MovedCursor
import LoxLex.Proofs.Session.ReporterLog
import LoxLex.Proofs.Session.Delivery
import LoxLex.Proofs.Scan.Relabelling
import LoxLex.Proofs.Scan.Comments
import LoxLex.Proofs.Scan.CarriageReturn
import LoxLex.Proofs.Console
import LoxLex.Proofs.Double.Units
import LoxLex.Proofs.Double.Rounding
import LoxLex.Proofs.Double.Binary64
import LoxLex.Proofs.Double.Nearest
import LoxLex.Proofs.Text.Decimal
import LoxLex.Proofs.Grammar.Decimal
import LoxLex.Proofs.Double.Shortest
import LoxLex.Proofs.Double.Layout
import LoxLex.Proofs.Scan.Numbers
import LoxLex.Proofs.Text.Quoted
import LoxLex.Proofs.Double.Display
import LoxLex.Proofs.Token.Describe
import LoxLex.Proofs.CommandLine.Count
import LoxLex.Proofs.Scanner.Reading
import LoxLex.Proofs.Scanner.Progress
