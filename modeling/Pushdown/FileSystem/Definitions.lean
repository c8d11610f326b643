import Pushdown.FileSystem
import Pushdown.Format.Reading

/-!
# Definitions in files

A definition is loaded from one file, or from each of the files of a directory whose names end in
`.pda`. A directory only lists names. What is under a name is looked up by its own path, so a file
that cannot be loaded leaves the others alone.
-/

namespace Pushdown.FileSystem

def definition (found : Except FileFault FileTree) (path : String) : Except Error Definition := do
  let text ← (found.bind FileTree.text).mapError (.unreadableFile path)
  Definition.ofText text

def loadDefinition (system : FileSystem) (path : String) : Except Error Definition :=
  definition (system.find path) path

/-- Whether a path leads to a directory. A path that cannot be looked up leads to none. -/
def isDirectory (system : FileSystem) (path : String) : Bool :=
  match system.find path with
  | .ok (.directory _) => true
  | _ => false

/-- What follows the last dot in a name, unless the name starts with that dot. -/
def extension? (name : String) : Option String :=
  let letters := name.toList.reverse
  match letters.dropWhile (· ≠ '.') with
  | [] | [_] => none
  | _ => some (String.ofList (letters.takeWhile (· ≠ '.')).reverse)

def isDefinitionName (name : String) : Bool := extension? name = some "pda"

def entryPath (directory name : String) : String :=
  if directory.endsWith "/" then directory ++ name else directory ++ "/" ++ name

/-- The bytes of a name, by which names are ordered. -/
def nameBytes (name : String) : List UInt8 := name.toUTF8.data.toList

/-- Those of the names listed in a directory that lead to definitions, in their order. -/
def definitionNames (system : FileSystem) (directory : String) (listed : List String) :
    List String :=
  let names := listed.filter fun name =>
    !system.isDirectory (entryPath directory name) && isDefinitionName name
  names.mergeSort fun a b => nameBytes a ≤ nameBytes b

/-- Loads the definition under a name in a directory, and wraps what goes wrong. -/
def loadEntry (system : FileSystem) (directory name : String) :
    Except Error (String × Definition) :=
  let path := entryPath directory name
  match system.loadDefinition path with
  | .ok definition => .ok (path, definition)
  | .error cause => .error (.unloadable path cause)

/-- Loads the definitions under the names listed in a directory, in whatever order it lists them. -/
def loadListed (system : FileSystem) (directory : String) (listed : List String) :
    List (Except Error (String × Definition)) :=
  (system.definitionNames directory listed).map (system.loadEntry directory)

def loadDefinitions (system : FileSystem) (path : String) :
    List (Except Error (String × Definition)) :=
  match system.find path with
  | .error _ => [.error (.missingDirectory path)]
  | .ok (.file _) => [.error (.unreadableDirectory path .notDirectory)]
  | .ok (.directory entries) => system.loadListed path (entries.map Prod.fst)

end Pushdown.FileSystem
