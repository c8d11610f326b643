import Pushdown.Format.Diagnostic
import Pushdown.Text.Quoted

/-!
# Errors

What can go wrong between a description of an automaton and the automaton. `message` is the whole
text that is shown; it opens with the category of the error.
-/

namespace Pushdown

inductive FileFault where
  | notFound
  | isDirectory
  | notDirectory
  /-- A name in the path, or the path as a whole, is too long. -/
  | nameTooLong
  | nulInPath
  /-- The bytes are not UTF-8. -/
  | notText
  | other (description : String)
  deriving DecidableEq, Repr

/-- A fault in the words of the operating system, with its number there if it has one. -/
def FileFault.message : FileFault → String
  | .notFound => "No such file or directory (os error 2)"
  | .isDirectory => "Is a directory (os error 21)"
  | .notDirectory => "Not a directory (os error 20)"
  | .nameTooLong => "File name too long (os error 36)"
  | .nulInPath => "file name contained an unexpected NUL byte"
  | .notText => "stream did not contain valid UTF-8"
  | .other description => description

inductive Error where
  | unknownState (state : State)
  | undeclaredInitial (state : State)
  | undeclaredFinals (states : List State)
  /-- Rules of a definition, given with their positions, start or end in states not declared. -/
  | undeclaredEnds (rules : List (Nat × Rule))
  | foreignSymbol (symbol : Symbol) (alphabet : Alphabet)
  | noStates
  | repeatedState (state : State)
  | noInitialState
  | tooLarge (limit : Nat)
  /-- The text of a definition does not follow the grammar, or declares something twice. -/
  | malformed (diagnostic : Format.Diagnostic)
  | missingSection (kind : Format.Section.Kind)
  | noSampleAt (index : Nat)
  | noSampleNamed (name : String)
  | noSampleTextAt (index : Nat)
  | unreadableFile (path : String) (fault : FileFault)
  | missingDirectory (path : String)
  | unreadableDirectory (path : String) (fault : FileFault)
  | unloadable (path : String) (cause : Error)
  deriving DecidableEq, Repr

namespace Error

/-- The kinds of error that a caller may want to tell apart. -/
inductive Category where
  | reference
  | alphabet
  | format
  | validation
  | file
  deriving DecidableEq, Repr

def category : Error → Category
  | .unknownState _ | .undeclaredInitial _ | .undeclaredFinals _ | .undeclaredEnds _ => .reference
  | .foreignSymbol _ _ => .alphabet
  | .malformed _ => .format
  | .noStates | .repeatedState _ | .noInitialState | .tooLarge _ | .missingSection _
  | .noSampleAt _ | .noSampleNamed _ | .noSampleTextAt _ => .validation
  | .unreadableFile _ _ | .missingDirectory _ | .unreadableDirectory _ _ | .unloadable _ _ => .file

/-- The words that open the message of an error; a foreign symbol needs none. -/
def Category.opening : Category → String
  | .reference => "Invalid reference: "
  | .alphabet => ""
  | .format => "Definition parsing error: "
  | .validation => "Definition validation error: "
  | .file => "File error: "

/-- A rule as `origin[position] -> destination`. -/
def renderEnds (position : Nat) (rule : Rule) : String :=
  s!"{rule.origin}[{position}] -> {rule.destination}"

def message (e : Error) : String :=
  e.category.opening ++
    match e with
    | .unknownState state => s!"unknown state '{state}'"
    | .undeclaredInitial state => s!"Invalid start state: {state}"
    | .undeclaredFinals states => s!"Final states are not declared: {Text.quoteList states}"
    | .undeclaredEnds rules =>
      let ends := rules.map fun (position, rule) => renderEnds position rule
      s!"Transitions reference undefined states: {Text.quoteList ends}"
    | .foreignSymbol symbol alphabet =>
      s!"Symbol '{symbol}' is not in the {alphabet.label} alphabet"
    | .noStates => "No states defined"
    | .repeatedState state => s!"State '{state}' is declared more than once"
    | .noInitialState => "Missing initial state"
    | .tooLarge limit => s!"Definition is larger than {limit} bytes"
    | .malformed diagnostic => diagnostic.render
    | .missingSection kind => s!"Missing '{kind.keyword}' section"
    | .noSampleAt index => s!"Definition index {index} out of range"
    | .noSampleNamed name => s!"Definition '{name}' not found"
    | .noSampleTextAt index => s!"Definition text index {index} out of range"
    | .unreadableFile path fault => s!"Failed to read file {path}: {fault.message}"
    | .missingDirectory path => s!"Directory {path} does not exist"
    | .unreadableDirectory path fault => s!"Failed to read directory {path}: {fault.message}"
    | .unloadable path cause => s!"Failed to load definition from {path}: {cause.message}"

end Error

end Pushdown
