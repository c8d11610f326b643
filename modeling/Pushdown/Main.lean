import Pushdown.CommandLine

/-!
# The program

Reads the arguments and the file they name, and prints the response.
-/

namespace Pushdown.CommandLine

def faultOf : IO.Error → FileFault
  | e@(.invalidArgument _ code _) => if code = 36 then .nameTooLong else .other (toString e)
  | .noFileOrDirectory _ _ _ => .notFound
  | .inappropriateType _ code _ => if code = 21 then .isDirectory else .notDirectory
  | .permissionDenied _ code _ => .other s!"Permission denied (os error {code})"
  | e => .other (toString e)

def readFile (path : String) : IO (Except FileFault FileTree) := do
  try
    return .ok (.file (← IO.FS.readBinFile path))
  catch e => return .error (faultOf e)

def answer (arguments : List String) : IO Response := do
  match Options.ofArguments arguments with
  | .error e => return refuse e
  | .ok options =>
    let file ← readFile options.program
    return options.respond (FileSystem.definition file options.program)

end Pushdown.CommandLine

def main (arguments : List String) : IO UInt32 := do
  let response ← Pushdown.CommandLine.answer arguments
  IO.print response.stdout
  IO.eprint response.stderr
  return response.code.toUInt32
