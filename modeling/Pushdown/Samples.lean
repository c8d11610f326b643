import Pushdown.Format.Reading
import Pushdown.Samples.Texts
import Pushdown.Text.Case

/-!
# The samples

A registry gives the sample definitions by position and by name. It reads their texts when the first
question is put to it, and keeps what it has read.
-/

namespace Pushdown

namespace Samples

def definitions : List Definition := texts.filterMap fun text => (Definition.ofText text).toOption

/-- The samples that have been read: none at first, then all of them. -/
structure Registry where
  loaded : List Definition
  deriving DecidableEq, Repr

def Registry.empty : Registry := ⟨[]⟩

structure Summary where
  index : Nat
  name : String
  initialState : State
  acceptance : Acceptance
  stateCount : Nat
  ruleCount : Nat
  nondeterministic : Bool
  deriving DecidableEq, Repr

abbrev Query (α : Type) := StateM Registry α

def load : Query (List Definition) := do
  if (← get).loaded.isEmpty then set (Registry.mk definitions)
  return (← get).loaded

def count : Query Nat := return (← load).length

def names : Query (List String) := return (← load).map (·.name)

def atIndex (index : Nat) : Query (Except Error Definition) := do
  match (← load)[index]? with
  | some definition => return .ok definition
  | none => return .error (.noSampleAt index)

def withName (name : String) : Query (Except Error Definition) := do
  match (← load).find? (·.name = name) with
  | some definition => return .ok definition
  | none => return .error (.noSampleNamed name)

def summary (index : Nat) : Query (Except Error Summary) := do
  let definition ← atIndex index
  return definition.map fun d => {
    index
    name := d.name
    initialState := d.initialState
    acceptance := d.acceptance
    stateCount := d.states.length
    ruleCount := d.rules.length
    nondeterministic := d.hasSharedKeys }

def search (query : String) : Query (List Nat) := do
  let found := (← load).zipIdx.filter fun (d, _) => Text.occursInAnyCase query d.name
  return found.map (·.2)

/-- The text of a sample. No sample is read for that. -/
def textAt (index : Nat) : Except Error String :=
  match texts[index]? with
  | some text => .ok text
  | none => .error (.noSampleTextAt index)

end Samples

end Pushdown
