import Pushdown.Budget
import Pushdown.Definition
import Pushdown.Json.Decoding
import Pushdown.Run

/-!
# JSON forms

How definitions, verdicts, budgets and runs are written as JSON values, and how those that can
be given from outside are read back.
-/

namespace Pushdown

open Json (required optional)

namespace Symbol

def toJson (symbol : Symbol) : Json := .string (String.singleton symbol)

def ofJson? : Json → Option Symbol := Json.character?

end Symbol

namespace Word

def toJson (word : Word) : Json := Json.ofList Symbol.toJson word

def ofJson? : Json → Option Word := Json.list? Symbol.ofJson?

end Word

namespace Acceptance

def toJson : Acceptance → Json
  | .finalState => .string "FinalStateOnly"
  | .emptyStack => .string "EmptyStackOnly"
  | .either => .string "EitherFinalStateOrEmptyStack"

def ofJson? : Json → Option Acceptance :=
  Json.bare? [
    ("FinalStateOnly", .finalState),
    ("EmptyStackOnly", .emptyStack),
    ("EitherFinalStateOrEmptyStack", .either)]

end Acceptance

namespace Criterion

def toJson : Criterion → Json
  | .finalState => .string "FinalState"
  | .emptyStack => .string "EmptyStack"

def ofJson? : Json → Option Criterion :=
  Json.bare? [("FinalState", .finalState), ("EmptyStack", .emptyStack)]

end Criterion

namespace Alphabet

def toJson : Alphabet → Json
  | .input => .string "Input"
  | .stack => .string "Stack"

def ofJson? : Json → Option Alphabet := Json.bare? [("Input", .input), ("Stack", .stack)]

end Alphabet

namespace RejectReason

def atCursor (name : String) (cursor : Nat) : Json :=
  .object [(name, .object [("cursor", .natural cursor)])]

def cursor? (payload : Option Json) : Option Nat := do
  match ← (← payload).fields? ["cursor"] 1 with
  | [cursor] => required Json.word? cursor
  | _ => none

def toJson : RejectReason → Json
  | .circling cursor => atCursor "InputNotExhausted" cursor
  | .notFinal => .string "WrongFinalState"
  | .stackLeft => .string "StackNotEmpty"
  | .stuck cursor => atCursor "NoApplicableTransition" cursor
  | .outOfBudget => .string "SearchBudgetExceeded"

def ofJson? (json : Json) : Option RejectReason :=
  match json.choice? with
  | some ("InputNotExhausted", payload) => (cursor? payload).map .circling
  | some ("NoApplicableTransition", payload) => (cursor? payload).map .stuck
  | _ =>
    json.bare? [
      ("WrongFinalState", .notFinal),
      ("StackNotEmpty", .stackLeft),
      ("SearchBudgetExceeded", .outOfBudget)]

end RejectReason

namespace Verdict

def toJson : Verdict → Json
  | .accepted criterion => .object [("Accepted", criterion.toJson)]
  | .rejected reason => .object [("Rejected", reason.toJson)]

def ofJson? (json : Json) : Option Verdict :=
  match json.choice? with
  | some ("Accepted", some payload) => (Criterion.ofJson? payload).map .accepted
  | some ("Rejected", some payload) => (RejectReason.ofJson? payload).map .rejected
  | _ => none

end Verdict

namespace Transition

namespace Key

def toJson (key : Key) : Json :=
  .object [
    ("state", .string key.state),
    ("input", Json.ofOption Symbol.toJson key.reads),
    ("stack", Json.ofOption Symbol.toJson key.pops)]

def ofJson? (json : Json) : Option Key := do
  match ← json.fields? ["state", "input", "stack"] 3 with
  | [state, reads, pops] =>
    return {
      state := ← required Json.string? state
      reads := ← optional Symbol.ofJson? reads
      pops := ← optional Symbol.ofJson? pops }
  | _ => none

end Key

namespace Target

def toJson (target : Target) : Json :=
  .object [("destination", .string target.destination), ("push", Word.toJson target.pushes)]

def ofJson? (json : Json) : Option Target := do
  match ← json.fields? ["destination", "push"] 2 with
  | [destination, pushes] =>
    return {
      destination := ← required Json.string? destination
      pushes := ← required Word.ofJson? pushes }
  | _ => none

end Target

def toJson (transition : Transition) : Json :=
  .object [("key", transition.key.toJson), ("target", transition.target.toJson)]

end Transition

namespace Rule

def toJson (rule : Rule) : Json :=
  .object [
    ("origin", .string rule.origin),
    ("input", Json.ofOption Symbol.toJson rule.reads),
    ("pop", Json.ofOption Symbol.toJson rule.pops),
    ("destination", .string rule.destination),
    ("push", Word.toJson rule.pushes)]

def ofJson? (json : Json) : Option Rule := do
  match ← json.fields? ["origin", "input", "pop", "destination", "push"] 5 with
  | [origin, reads, pops, destination, pushes] =>
    return {
      origin := ← required Json.string? origin
      reads := ← optional Symbol.ofJson? reads
      pops := ← optional Symbol.ofJson? pops
      destination := ← required Json.string? destination
      pushes := ← required Word.ofJson? pushes }
  | _ => none

end Rule

namespace Definition

def fieldNames : List String :=
  ["name", "states", "input_alphabet", "stack_alphabet", "initial_state", "final_states",
    "acceptance", "initial_stack_symbol", "transitions"]

def toJson (d : Definition) : Json :=
  .object [
    ("name", .string d.name),
    ("states", Json.ofList .string d.states),
    ("input_alphabet", Word.toJson d.inputAlphabet),
    ("stack_alphabet", Word.toJson d.stackAlphabet),
    ("initial_state", .string d.initialState),
    ("final_states", Json.ofList .string d.finalStates),
    ("acceptance", d.acceptance.toJson),
    ("initial_stack_symbol", Json.ofOption Symbol.toJson d.bottom),
    ("transitions", Json.ofList Rule.toJson d.rules)]

def ofJson? (json : Json) : Option Definition := do
  match ← json.fields? fieldNames 9 with
  | [name, states, inputAlphabet, stackAlphabet, initialState, finalStates, acceptance, bottom,
      rules] =>
    return {
      name := ← required Json.string? name
      states := ← required (Json.list? Json.string?) states
      inputAlphabet := ← required Word.ofJson? inputAlphabet
      stackAlphabet := ← required Word.ofJson? stackAlphabet
      initialState := ← required Json.string? initialState
      finalStates := ← required (Json.list? Json.string?) finalStates
      acceptance := ← required Acceptance.ofJson? acceptance
      bottom := ← optional Symbol.ofJson? bottom
      rules := ← required (Json.list? Rule.ofJson?) rules }
  | _ => none

end Definition

namespace Duration

def second : Nat := 1000000000

def toJson (duration : Duration) : Json :=
  .object [
    ("secs", .natural (duration.nanoseconds / second)),
    ("nanos", .natural (duration.nanoseconds % second))]

/-- Seconds and nanoseconds, of which there may be more than a second's worth. The seconds have to
fit 64 bits with what is carried to them, the nanoseconds 32 bits, and there is no third field. -/
def ofJson? (json : Json) : Option Duration := do
  if let .object members := json then
    if members.any fun (name, _) => name ≠ "secs" ∧ name ≠ "nanos" then none
  match ← json.fields? ["secs", "nanos"] 2 with
  | [secs, nanos] =>
    let secs ← required Json.word? secs
    let nanos ← required Json.word? nanos
    if nanos < UInt32.size ∧ secs + nanos / second ≤ Json.wordMax then
      some ⟨secs * second + nanos⟩
    else none
  | _ => none

end Duration

namespace Budget

def toJson (budget : Budget) : Json :=
  .object [
    ("max_steps", .natural budget.maxSteps),
    ("max_depth", .natural budget.maxDepth),
    ("timeout", Json.ofOption Duration.toJson budget.timeout)]

def ofJson? (json : Json) : Option Budget := do
  match ← json.fields? ["max_steps", "max_depth", "timeout"] 2 with
  | [maxSteps, maxDepth, timeout] =>
    return {
      maxSteps := ← required Json.word? maxSteps
      maxDepth := ← required Json.word? maxDepth
      timeout := ← optional Duration.ofJson? timeout }
  | _ => none

end Budget

def Stack.toJson (stack : Stack) : Json := Word.toJson stack.toWord

def Configuration.toJson (c : Configuration) : Json :=
  .object [
    ("state", .string c.state),
    ("cursor", .natural c.cursor),
    ("stack", c.stack.toJson)]

def Step.toJson (step : Step) : Json :=
  .object [
    ("configuration", step.configuration.toJson),
    ("transition", Json.ofOption Transition.toJson step.transition)]

def Trace.toJson (trace : Trace) : Json :=
  .object [
    ("input", Word.toJson trace.word),
    ("steps", Json.ofList Step.toJson trace.steps)]

def Run.toJson (run : Run) : Json :=
  .object [
    ("verdict", run.verdict.toJson),
    ("trace", run.trace.toJson),
    ("steps", .natural run.steps)]

end Pushdown
