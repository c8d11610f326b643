import Pushdown.Configuration

/-!
# Traces

A trace is a path of configurations together with the word that was read along it.
-/

namespace Pushdown

/-- A configuration on a path, with the transition that led to it; the first has none. -/
structure Step where
  configuration : Configuration
  transition : Option Transition
  deriving DecidableEq

structure Trace where
  word : Word
  steps : List Step
  deriving DecidableEq

namespace Trace

def empty : Trace := ⟨[], []⟩

def length (t : Trace) : Nat := t.steps.length

def isEmpty (t : Trace) : Bool := t.steps.isEmpty

def last? (t : Trace) : Option Configuration := t.steps.getLast?.map (·.configuration)

def transitions (t : Trace) : List Transition := t.steps.filterMap (·.transition)

def describe (t : Trace) (c : Configuration) : String := c.describe t.word

def renderStep (t : Trace) (step : Step) (position : Nat) : String :=
  let moved := match step.transition with
    | some transition => s!"      Transition: {transition.render}\n"
    | none => ""
  s!"{moved}Step {position}: {t.describe step.configuration}\n"

def render (t : Trace) : String :=
  "".intercalate (t.steps.zipIdx.map fun (step, position) => t.renderStep step position)

end Trace

end Pushdown
