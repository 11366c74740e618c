import LoxLex.Text.Utf8

/-!
# File trees

A `FileTree` holds files and directories by their `Location`, and a location is a way down from a
directory that is always there: the root, the working directory or one above it. `names` cuts a path
with slashes into names and `Location.move` follows one of them: an empty name and a dot stay and
two dots go up. `FileTree.add` makes an entry with the directories that its path passes through.
-/

namespace LoxLex

open Utf8 (Bytes)

/-- The working directory is the one zero levels above itself. -/
inductive Origin where
  | above (levels : Nat)
  | root
  deriving DecidableEq

def Origin.parent : Origin → Origin
  | above levels => above (levels + 1)
  | root => root

structure Location where
  origin : Origin
  trail : List Text := []
  deriving DecidableEq

namespace Location

def parent (l : Location) : Location :=
  if l.trail = [] then { l with origin := l.origin.parent } else { l with trail := l.trail.dropLast }

def child (l : Location) (name : Text) : Location := { l with trail := l.trail ++ [name] }

def move (l : Location) (name : Text) : Location :=
  if name = [] ∨ name = ".".toList then l
  else if name = "..".toList then l.parent
  else l.child name

/-- Where a path starts. -/
def start (path : Text) : Location :=
  if path.head? = some '/' then ⟨.root, []⟩ else ⟨.above 0, []⟩

end Location

inductive Entry where
  | file (content : Bytes)
  | directory
  deriving DecidableEq

structure FileTree where
  entries : List (Location × Entry) := []

namespace FileTree

/-- The names of a path, the empty ones included. -/
def names (path : Text) : List Text := path.splitOn '/'

def at? (tree : FileTree) (l : Location) : Option Entry :=
  if l.trail = [] then some .directory else tree.entries.lookup l

/-- Makes an entry. An older one at the same place counts no more. -/
def put (tree : FileTree) (l : Location) (e : Entry) : FileTree := ⟨(l, e) :: tree.entries⟩

/-- Goes on by one name of a path, to a directory that is made if it is not there. -/
def makeWay (tree : FileTree) (here : Location) (name : Text) : FileTree × Location :=
  let next := here.move name
  (if (tree.at? next).isSome then tree else tree.put next .directory, next)

def add (tree : FileTree) (path : Text) (e : Entry) : FileTree :=
  let (tree, here) :=
    (names path).dropLast.foldl (fun (tree, here) => tree.makeWay here) (tree, .start path)
  tree.put (here.move ((names path).getLastD [])) e

end FileTree

end LoxLex
