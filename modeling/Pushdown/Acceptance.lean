/-!
# Acceptance

When the input is used up, an automaton judges the configuration it stopped in by its state, by
its stack, or by either.
-/

namespace Pushdown

/-- How an automaton judges a configuration whose input is used up. -/
inductive Acceptance where
  | finalState
  | emptyStack
  | either
  deriving DecidableEq, Repr

inductive Criterion where
  | finalState
  | emptyStack
  deriving DecidableEq, Repr

def Acceptance.label : Acceptance → String
  | .finalState => "final-state"
  | .emptyStack => "empty-stack"
  | .either => "either"

def Criterion.label : Criterion → String
  | .finalState => "final state"
  | .emptyStack => "empty stack"

/-- The criterion that holds under a mode. Where either would do, a final state is named first. -/
def Acceptance.judge (mode : Acceptance) (inFinalState stackEmpty : Bool) : Option Criterion :=
  match mode with
  | .finalState => if inFinalState then some .finalState else none
  | .emptyStack => if stackEmpty then some .emptyStack else none
  | .either =>
    if inFinalState then some .finalState else if stackEmpty then some .emptyStack else none

end Pushdown
