import LoxLex.FileTree.Path
import LoxLex.Scan

/-!
# Source files

`load` reads the text of a source file: it finds the file and decodes it strictly, and no character
of it is lost or changed. `scanFile` scans it as a text that must be free of faults.
-/

namespace LoxLex

open Utf8 (Bytes)

/-- Why the text of a file is not to be had. -/
inductive LoadError where
  | nulInPath
  | unreadable (error : AccessError)
  | undecodable (fault : Utf8.Fault)
  deriving DecidableEq

namespace LoadError

def message (path : Text) : LoadError → Text
  | nulInPath => "embedded null byte".toList
  | unreadable error => error.message path
  | undecodable fault => fault.message

end LoadError

/-- The text of the file that `read` finds at `path`. -/
def loadWith (read : Text → Except AccessError Bytes) (path : Text) : Except LoadError Text :=
  if '\x00' ∈ path then .error .nulInPath
  else
    match read path with
    | .error e => .error (.unreadable e)
    | .ok bytes => (Utf8.decode bytes).mapError .undecodable

def load (files : FileTree) (path : Text) : Except LoadError Text := loadWith files.read path

/-- Why a file gives no tokens. -/
inductive ScanFileError where
  | load (error : LoadError)
  | lexical (first : Diagnostic)
  deriving DecidableEq

def scanFile (files : FileTree) (path : Text) : Except ScanFileError (List Token) := do
  let source ← (load files path).mapError .load
  (scanStrict source).mapError .lexical

end LoxLex
