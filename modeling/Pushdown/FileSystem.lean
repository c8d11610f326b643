import Pushdown.FileTree

/-!
# File systems

A tree of files with a directory of it to work in. A path is a text with names between slashes: one
that opens with a slash leads down from the root of the tree, and any other from the working
directory. `find` gives what a path leads to.
-/

namespace Pushdown

/-- Files under one root. Paths are texts like the names in them, so that a path which is not valid
UTF-8 is outside of what is described here. -/
structure FileSystem where
  root : FileTree
  /-- The names that lead from the root to the directory in which relative paths start. -/
  workingDirectory : List String
  deriving Inhabited

namespace FileSystem

/-- The names in a path: what stands before, between and after its slashes. -/
def names : List Char → List (List Char)
  | [] => [[]]
  | c :: rest =>
    if c = '/' then [] :: names rest
    else
      match names rest with
      | first :: others => (c :: first) :: others
      | [] => [[c]]

def pathLimit : Nat := 4095

/-- What a path leads to. The path as a whole is looked at before any of its names. -/
def find (system : FileSystem) (path : String) : Except FileFault FileTree :=
  if path.contains '\x00' then .error .nulInPath
  else if path.isEmpty then .error .notFound
  else if path.utf8ByteSize > pathLimit then .error .nameTooLong
  else
    let start := if path.startsWith "/" then [] else system.workingDirectory
    FileTree.walk [] system.root (start ++ (names path.toList).map String.ofList)

end FileSystem

end Pushdown
