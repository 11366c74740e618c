import LoxLex.FileTree.Basic
import LoxLex.Text.Quoted

/-!
# Opening by path

`FileTree.read` finds a file by its path. Every name of the path needs a directory to be looked up
in, and a name or a path that is too long is refused when it is reached. `AccessError` says why there
is nothing to read.
-/

namespace LoxLex

open Utf8 (Bytes)

inductive AccessError where
  | notFound
  | notADirectory
  | isADirectory
  | nameTooLong
  /-- Any other refusal of the system, by number and text. -/
  | other (number : Nat) (reason : Text)
  deriving DecidableEq

namespace AccessError

def number : AccessError → Nat
  | notFound => 2
  | notADirectory => 20
  | isADirectory => 21
  | nameTooLong => 36
  | other number _ => number

def reason : AccessError → Text
  | notFound => "No such file or directory".toList
  | notADirectory => "Not a directory".toList
  | isADirectory => "Is a directory".toList
  | nameTooLong => "File name too long".toList
  | other _ reason => reason

def ofNumber (number : Nat) (reason : Text) : AccessError :=
  match [notFound, notADirectory, isADirectory, nameTooLong].find? fun e => e.number = number with
  | some e => e
  | none => other number reason

def message (e : AccessError) (path : Text) : Text :=
  "[Errno ".toList ++ Text.decimal e.number ++ "] ".toList ++ e.reason ++ ": ".toList ++
    Text.quoted path

end AccessError

namespace FileTree

/-- The bytes of a single name are at most this many. -/
def maxName : Nat := 255

/-- The bytes of a whole path are fewer than this many. -/
def maxPath : Nat := 4096

/-- Follows one name of a path to something that is there. -/
def walkName (tree : FileTree) (here : Location) (name : Text) : Except AccessError Location :=
  match tree.at? here with
  | none => .error .notFound
  | some (.file _) => .error .notADirectory
  | some .directory =>
    if maxName < (Utf8.encode name).length then .error .nameTooLong
    else if (tree.at? (here.move name)).isSome then .ok (here.move name)
    else .error .notFound

def walk (tree : FileTree) (path : Text) : Except AccessError Location :=
  if path = [] then .error .notFound
  else if maxPath ≤ (Utf8.encode path).length then .error .nameTooLong
  else (names path).foldlM tree.walkName (.start path)

def read (tree : FileTree) (path : Text) : Except AccessError Bytes := do
  match tree.at? (← tree.walk path) with
  | none => .error .notFound
  | some .directory => .error .isADirectory
  | some (.file content) => .ok content

end FileTree

end LoxLex
