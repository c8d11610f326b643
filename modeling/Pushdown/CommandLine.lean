import Pushdown.Automaton.Draft
import Pushdown.FileSystem.Definitions
import Pushdown.Json.Forms
import Pushdown.Json.Writer

/-!
# The command line

The command runs the automaton in a file on words and reports on each. Arguments are read by
`Options.ofArguments`, and `Options.respond` says what is printed and with which code the command
ends: 0 if all words are accepted, 1 if not, 2 if there is no automaton to run.
-/

namespace Pushdown.CommandLine

inductive Switch where
  | program
  | input
  | debug
  | json
  | maxSteps
  | maxDepth
  deriving DecidableEq, Repr

namespace Switch

def all : List Switch := [.program, .input, .debug, .json, .maxSteps, .maxDepth]

def long : Switch → String
  | .program => "program"
  | .input => "input"
  | .debug => "debug"
  | .json => "json"
  | .maxSteps => "max-steps"
  | .maxDepth => "max-depth"

def short? : Switch → Option Char
  | .program => some 'p'
  | .input => some 'i'
  | .debug => some 'd'
  | .json => some 'j'
  | .maxSteps | .maxDepth => none

def takesValue : Switch → Bool
  | .debug | .json => false
  | _ => true

end Switch

inductive UsageError where
  | unexpected (argument : String)
  | missingValue (switch : Switch)
  | unwantedValue (switch : Switch)
  | repeated (switch : Switch)
  | invalidNumber (switch : Switch) (value : String)
  | missingProgram
  deriving DecidableEq, Repr

def UsageError.message : UsageError → String
  | .unexpected argument => s!"unexpected argument '{argument}' found"
  | .missingValue switch => s!"a value is required for '--{switch.long}' but none was supplied"
  | .unwantedValue switch => s!"unexpected value for '--{switch.long}' found; no more were expected"
  | .repeated switch => s!"the argument '--{switch.long}' cannot be used multiple times"
  | .invalidNumber switch value => s!"invalid value '{value}' for '--{switch.long}'"
  | .missingProgram => "the argument '--program' was not provided"

/-- The options that were given, in order, each with its value or with an empty text. -/
structure Given where
  settings : List (Switch × String)
  /-- The option whose value is the next argument. -/
  pending : Option Switch := none
  /-- Whether two dashes by themselves have put an end to the options. -/
  ended : Bool := false

/-- Reads the letters after a single dash: flags, and at the end perhaps an option with its
value. -/
def readLetters (settings : List (Switch × String)) : List Char → Except UsageError Given
  | [] => .ok { settings }
  | letter :: rest =>
    match Switch.all.find? (·.short? = some letter) with
    | none => .error (.unexpected s!"-{letter}")
    | some switch =>
      if switch.takesValue then
        match rest with
        | [] => .ok { settings, pending := some switch }
        | '=' :: value => .ok { settings := settings ++ [(switch, String.ofList value)] }
        | value => .ok { settings := settings ++ [(switch, String.ofList value)] }
      else readLetters (settings ++ [(switch, "")]) rest

/-- Reads the text after two dashes: a name, perhaps with a value after an equals sign. -/
def readLong (settings : List (Switch × String)) (text : List Char) : Except UsageError Given :=
  let name := String.ofList (text.takeWhile (· ≠ '='))
  match Switch.all.find? (·.long = name), text.dropWhile (· ≠ '=') with
  | none, _ => .error (.unexpected s!"--{name}")
  | some switch, [] =>
    if switch.takesValue then .ok { settings, pending := some switch }
    else .ok { settings := settings ++ [(switch, "")] }
  | some switch, _ :: value =>
    if switch.takesValue then .ok { settings := settings ++ [(switch, String.ofList value)] }
    else .error (.unwantedValue switch)

/-- Reads one argument more. An argument that opens with a dash is no value, unless it is just
that; and nothing is expected after the end of the options. -/
def Given.read (given : Given) (argument : String) : Except UsageError Given :=
  if given.ended then .error (.unexpected argument)
  else
    match given.pending, argument.toList with
    | some switch, '-' :: _ :: _ => .error (.missingValue switch)
    | some switch, _ => .ok { settings := given.settings ++ [(switch, argument)] }
    | none, ['-', '-'] => .ok { settings := given.settings, ended := true }
    | none, '-' :: '-' :: text => readLong given.settings text
    | none, '-' :: letter :: letters => readLetters given.settings (letter :: letters)
    | none, _ => .error (.unexpected argument)

def dropPlus : List Char → List Char
  | '+' :: digits => digits
  | digits => digits

/-- The number that a text of decimal digits stands for, if it fits 64 bits. A plus sign may stand
before it. -/
def number? (text : String) : Option Nat :=
  let digits := dropPlus text.toList
  if digits.isEmpty || digits.any (!·.isDigit) then none
  else
    let value := digits.foldl (fun n c => 10 * n + (c.toNat - '0'.toNat)) 0
    if value < UInt64.size then some value else none

structure Options where
  program : String
  inputs : List String
  debug : Bool
  json : Bool
  budget : Budget
  deriving DecidableEq, Repr

namespace Options

/-- The value of an option that may be given once. -/
def single (settings : List (Switch × String)) (switch : Switch) :
    Except UsageError (Option String) :=
  match settings.filter (·.1 = switch) with
  | [] => .ok none
  | [(_, value)] => .ok (some value)
  | _ => .error (.repeated switch)

def limit (settings : List (Switch × String)) (switch : Switch) (otherwise : Nat) :
    Except UsageError Nat := do
  match ← single settings switch with
  | none => return otherwise
  | some value =>
    match number? value with
    | some n => return n
    | none => throw (.invalidNumber switch value)

def ofArguments (arguments : List String) : Except UsageError Options := do
  let given ← arguments.foldlM Given.read { settings := [] }
  if let some switch := given.pending then throw (.missingValue switch)
  let settings := given.settings
  let some program ← single settings .program | throw .missingProgram
  let debug ← single settings .debug
  let json ← single settings .json
  let maxSteps ← limit settings .maxSteps Budget.standard.maxSteps
  let maxDepth ← limit settings .maxDepth Budget.standard.maxDepth
  return {
    program
    inputs := (settings.filter (·.1 = .input)).map (·.2)
    debug := debug.isSome
    json := json.isSome
    budget := { maxSteps, maxDepth, timeout := none } }

end Options

structure Response where
  code : Nat
  stdout : String
  stderr : String
  deriving DecidableEq, Repr

structure Printed where
  text : String
  allAccepted : Bool
  deriving DecidableEq, Repr

def verdictLine (word : String) (verdict : Verdict) : String :=
  match verdict with
  | .accepted criterion => s!"{word}: ACCEPTED ({criterion.label})\n"
  | .rejected reason => s!"{word}: REJECTED ({reason.label})\n"

namespace Options

def report (options : Options) (input : String) (run : Run) : String :=
  let word := Word.render input.toList
  if options.json then run.toJson.renderPretty ++ "\n"
  else if options.debug then
    s!"Input: {word}\n{run.trace.render}{verdictLine word run.verdict}\n"
  else verdictLine word run.verdict

def words (options : Options) : List String :=
  if options.inputs.isEmpty then [""] else options.inputs

/-- Runs an automaton on one word more, and goes on to the next whatever the verdict. -/
def proceed (options : Options) (automaton : Automaton) (sofar : Printed) (input : String) :
    Printed :=
  let run := automaton.run input.toList options.budget .still
  { text := sofar.text ++ options.report input run
    allAccepted := sofar.allAccepted && run.verdict.isAccepted }

/-- Runs a definition on the words in turn, or says why there is nothing to run. -/
def respond (options : Options) (definition : Except Error Definition) : Response :=
  match definition.bind Automaton.ofDefinition with
  | .error e => ⟨2, "", s!"Error: {e.message}\n"⟩
  | .ok automaton =>
    let printed := options.words.foldl (options.proceed automaton) ⟨"", true⟩
    ⟨if printed.allAccepted then 0 else 1, printed.text, ""⟩

end Options

def refuse (e : UsageError) : Response := ⟨2, "", s!"error: {e.message}\n"⟩

/-- The response to arguments where a file system is all there is to read. -/
def run (system : FileSystem) (arguments : List String) : Response :=
  match Options.ofArguments arguments with
  | .error e => refuse e
  | .ok options => options.respond (system.loadDefinition options.program)

end Pushdown.CommandLine
