/-!
# Budgets

A run may be limited in the configurations it enters, in the length of a path, and in time. Time is
a function from the number of configurations entered to what a clock shows, so that a run stays a
function of its arguments.
-/

namespace Pushdown

structure Duration where
  nanoseconds : Nat
  deriving DecidableEq, Repr

/-- What is on the clock when the `n`-th configuration is entered, counted from the start. -/
abbrev Clock := Nat → Duration

/-- A clock that stands still: a run is done before any time has passed. -/
def Clock.still : Clock := fun _ => ⟨0⟩

structure Budget where
  /-- How many configurations may be entered, over all branches. -/
  maxSteps : Nat
  /-- How many configurations a path may have; the initial one is always entered. -/
  maxDepth : Nat
  /-- The time from the start of a run after which it is abandoned. It ends at a point in time that
  a clock can show; longer ones are outside of what is described here. -/
  timeout : Option Duration
  deriving DecidableEq, Repr

namespace Budget

def standard : Budget where
  maxSteps := 100000
  maxDepth := 256
  timeout := none

instance : Inhabited Budget := ⟨standard⟩

def isSpent (budget : Budget) (clock : Clock) (n : Nat) : Bool :=
  budget.maxSteps < n || budget.timeout.any fun limit => limit.nanoseconds ≤ (clock n).nanoseconds

end Budget

end Pushdown
