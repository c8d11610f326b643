import Pushdown.Error

/-!
# Trees of files

What a directory holds, as a value: files with their bytes and directories with their entries.
`walk` follows names from a directory downwards and back up, and `text` gives the text of a file.
-/

namespace Pushdown

/-- A file or a directory. The names in a directory are texts: entries under names that are not
valid UTF-8 are outside of what is described here. -/
inductive FileTree where
  | file (bytes : ByteArray)
  | directory (entries : List (String × FileTree))
  deriving Inhabited

namespace FileTree

def nameLimit : Nat := 255

def entry (entries : List (String × FileTree)) (name : String) : Except FileFault FileTree :=
  if name.utf8ByteSize > nameLimit then .error .nameTooLong
  else
    match entries.lookup name with
    | some found => .ok found
    | none => .error .notFound

/-- Follows names down from `here`; `above` holds the directories around it, nearest first. An empty
name and a single dot stay where they are, two dots lead back up, and at the top stay there. -/
def walk (above : List FileTree) (here : FileTree) : List String → Except FileFault FileTree
  | [] => .ok here
  | name :: rest =>
    match here with
    | .file _ => .error .notDirectory
    | .directory entries =>
      if name = "" ∨ name = "." then walk above here rest
      else if name = ".." then
        match above with
        | [] => walk [] here rest
        | around :: above => walk above around rest
      else
        match entry entries name with
        | .ok found => walk (here :: above) found rest
        | .error fault => .error fault

def text : FileTree → Except FileFault String
  | .directory _ => .error .isDirectory
  | .file bytes =>
    match String.fromUTF8? bytes with
    | some text => .ok text
    | none => .error .notText

end FileTree

end Pushdown
