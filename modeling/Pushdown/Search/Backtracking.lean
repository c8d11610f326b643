import Std.Data.HashSet
import Pushdown.Run

/-!
# Backtracking

The search as it is carried out: on one path, which grows by every configuration that is entered and
shrinks again when nothing is found from there, and with the set of the configurations on it beside
it. What a search does is told by one call of it in terms of the calls that it makes, `visitWith`;
`search` gives these all the room that the path leaves them.
-/

namespace Pushdown

/-- What is hashed of a stack are its height and its symbols, topmost first. -/
instance : Hashable Stack where
  hash s := s.toList.foldl (fun sofar symbol => mixHash sofar symbol.val.toUInt64) (hash s.height)

deriving instance Hashable for Configuration

inductive Exceeded where
  | steps (limit : Nat)
  | deadline
  deriving DecidableEq, Repr

structure Searcher where
  /-- The open path, the first configuration first. -/
  path : Array Step
  /-- The configurations on the path. -/
  active : Std.HashSet Configuration
  /-- The last path that could not be extended, and why it was not accepted. -/
  deadEnd : Option (Array Step × RejectReason)
  /-- The number of configurations that were to be entered. -/
  entered : Nat
  /-- Whether some path was cut for its length. -/
  wasCut : Bool

/-- A step of a search; one that gives up leaves everything as it is then. -/
abbrev Searching := EStateM Exceeded Searcher

structure Expansion where
  /-- Whether one of them could be applied. -/
  applicable : Bool := false
  /-- Whether one of them was followed. -/
  explored : Bool := false

namespace Searcher

def initial : Searcher :=
  { path := #[], active := ∅, deadEnd := none, entered := 0, wasCut := false }

/-- One configuration more is to be entered. -/
def count (s : Searcher) : Searcher := { s with entered := s.entered + 1 }

def enter (s : Searcher) (step : Step) : Searcher :=
  { s with path := s.path.push step, active := s.active.insert step.configuration }

/-- Takes the last step off the path, which led to the given configuration. -/
def leave (s : Searcher) (c : Configuration) : Searcher :=
  { s with path := s.path.pop, active := s.active.erase c }

/-- Counts a configuration that is to be entered, and gives up if the budget does not allow it. -/
def charge (budget : Budget) (clock : Clock) : Searching Unit := do
  modify count
  let s ← get
  if budget.maxSteps < s.entered then throw (.steps budget.maxSteps)
  else if budget.timeout.any fun limit => limit.nanoseconds ≤ (clock s.entered).nanoseconds then
    throw .deadline

/-- Tries transitions from a configuration in turn until something is found. Those that lead back
onto the path are passed over, and so are those for which the path is too long. -/
def tryEach (maxDepth : Nat) (visit : Step → Searching (Option Criterion)) (c : Configuration) :
    List Transition → Expansion → Searching (Option Criterion × Expansion)
  | [], expansion => return (none, expansion)
  | t :: rest, expansion => do
    match t.fire? c with
    | none => tryEach maxDepth visit c rest expansion
    | some next =>
      let s ← get
      if s.active.contains next then
        tryEach maxDepth visit c rest { expansion with applicable := true }
      else if maxDepth ≤ s.path.size then
        set { s with wasCut := true }
        tryEach maxDepth visit c rest { expansion with applicable := true }
      else
        match ← visit ⟨next, some t⟩ with
        | some criterion => return (some criterion, { applicable := true, explored := true })
        | none => tryEach maxDepth visit c rest { applicable := true, explored := true }

variable (a : Automaton) (word : Word) (budget : Budget) (clock : Clock)

/-- Searches on from the configuration at the end of the path. One that nothing was followed from is
a dead end. -/
def expand (visit : Step → Searching (Option Criterion)) (c : Configuration) :
    Searching (Option Criterion) := do
  match a.accepts? word c with
  | some criterion => return some criterion
  | none =>
    let reading := match word[c.cursor]? with
      | some symbol =>
        if a.readsSymbol symbol then a.table.candidates c.state (some symbol) c.stack.top else []
      | none => []
    match ← tryEach budget.maxDepth visit c reading {} with
    | (some criterion, _) => return some criterion
    | (none, expansion) =>
      let silent := a.table.candidates c.state none c.stack.top
      match ← tryEach budget.maxDepth visit c silent expansion with
      | (some criterion, _) => return some criterion
      | (none, expansion) =>
        if !expansion.explored then
          let reason := a.diagnose c word.length expansion.applicable
          modify fun s => { s with deadEnd := some (s.path, reason) }
        return none

/-- Enters a configuration and searches all that follows from it, with `visit` for every
configuration after it. It stays on the path if something is found. -/
def visitWith (visit : Step → Searching (Option Criterion)) (step : Step) :
    Searching (Option Criterion) := do
  charge budget clock
  modify (·.enter step)
  let found ← expand a word budget visit step.configuration
  if found.isNone then modify (·.leave step.configuration)
  return found

/-- Searches with at most `room` configurations after the one that is entered. -/
def searchWithin : (room : Nat) → Step → Searching (Option Criterion)
  | 0 => visitWith a word budget clock fun _ => return none
  | room + 1 => visitWith a word budget clock (searchWithin room)

def search (step : Step) : Searching (Option Criterion) := do
  let s ← get
  searchWithin a word budget clock (budget.maxDepth - (s.path.size + 1)) step

/-- The run that the end of a search amounts to. Where nothing is found and no dead end is known,
`fallback` stands for it. -/
def conclude (fallback : Array Step × RejectReason) :
    EStateM.Result Exceeded Searcher (Option Criterion) → Run
  | .ok (some criterion) s =>
    { verdict := .accepted criterion, trace := ⟨word, s.path.toList⟩, steps := s.entered }
  | .ok none s =>
    let (path, reason) := s.deadEnd.getD fallback
    { verdict := .rejected (if s.wasCut then .outOfBudget else reason)
      trace := ⟨word, path.toList⟩
      steps := s.entered }
  | .error _ s =>
    { verdict := .rejected .outOfBudget, trace := ⟨word, s.path.toList⟩, steps := s.entered }

def run : Run :=
  conclude word (#[], .outOfBudget)
    ((search a word budget clock ⟨a.initialConfiguration, none⟩).run .initial)

end Searcher

end Pushdown
