import Pushdown.Automaton.Moves
import Pushdown.Budget

/-!
# The search

A search follows paths of configurations depth first, in the order in which the moves of an
automaton are tried. It never enters a configuration that is on the open path already, and the first
accepting configuration ends it. If there is none, it remembers the last path that it could not
extend.

`visit` recurses on the number of configurations that the path may still grow by, so it is total
whatever the automaton does.
-/

namespace Pushdown.Search

/-- A path of configurations, the last one first. -/
abbrev Path := List Step

def onPath (path : Path) (c : Configuration) : Bool := path.any (·.configuration = c)

structure Progress where
  /-- The number of configurations that were to be entered. -/
  entered : Nat
  /-- The last path that could not be extended, and why it was not accepted. -/
  deadEnd : Option (Path × RejectReason)
  /-- Whether some path was cut for its length. -/
  wasCut : Bool

def Progress.initial : Progress := { entered := 0, deadEnd := none, wasCut := false }

inductive Outcome where
  | accepted (path : Path) (criterion : Criterion)
  | exhausted
  /-- The budget ran out while a path was open. -/
  | abandoned (path : Path)

/-- Visits steps in turn until one does not come back empty-handed. -/
def firstOutcome (visit : Step → Progress → Outcome × Progress) :
    List Step → Progress → Outcome × Progress
  | [], progress => (.exhausted, progress)
  | step :: rest, progress =>
    match visit step progress with
    | (.exhausted, progress) => firstOutcome visit rest progress
    | found => found

/-- Enters a configuration at the end of an open path, and searches all that follows from it with at
most `room` more configurations on the path. A configuration that the budget does not allow counts
as entered but is not put on the path. -/
def visit (a : Automaton) (word : Word) (budget : Budget) (clock : Clock) (room : Nat) (path : Path)
    (step : Step) (progress : Progress) : Outcome × Progress :=
  let progress := { progress with entered := progress.entered + 1 }
  if budget.isSpent clock progress.entered then (.abandoned path, progress)
  else
    let path := step :: path
    match a.accepts? word step.configuration with
    | some criterion => (.accepted path criterion, progress)
    | none =>
      let moves := a.moves word step.configuration
      let reason := a.diagnose step.configuration word.length (!moves.isEmpty)
      match room, moves.filter (!onPath path ·.configuration) with
      | _, [] => (.exhausted, { progress with deadEnd := some (path, reason) })
      | 0, _ => (.exhausted, { progress with deadEnd := some (path, reason), wasCut := true })
      | room + 1, fresh => firstOutcome (visit a word budget clock room path) fresh progress
termination_by structural room

/-- Searches from the initial configuration, which is entered even if no path may be that long. -/
def search (a : Automaton) (word : Word) (budget : Budget) (clock : Clock) : Outcome × Progress :=
  visit a word budget clock (budget.maxDepth - 1) [] ⟨a.initialConfiguration, none⟩ .initial

end Pushdown.Search
