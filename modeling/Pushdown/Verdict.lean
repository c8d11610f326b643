import Pushdown.Acceptance

/-!
# Verdicts

How a run ends: with the criterion that accepted it, or with the reason why it was rejected.
-/

namespace Pushdown

inductive RejectReason where
  /-- There were moves, but they all led back into the path, with input left from `cursor` on. -/
  | circling (cursor : Nat)
  /-- The input was used up in a state that is not final. -/
  | notFinal
  /-- The input was used up with symbols left on the stack. -/
  | stackLeft
  /-- There was no move, with input left from `cursor` on. -/
  | stuck (cursor : Nat)
  /-- The search was cut before it could tell. -/
  | outOfBudget
  deriving DecidableEq, Repr

def RejectReason.label : RejectReason → String
  | .circling cursor => s!"input not exhausted (stopped at position {cursor})"
  | .notFinal => "input exhausted in a non-final state"
  | .stackLeft => "input exhausted but stack is not empty"
  | .stuck cursor => s!"no applicable transition at position {cursor}"
  | .outOfBudget => "search budget exceeded"

inductive Verdict where
  | accepted (criterion : Criterion)
  | rejected (reason : RejectReason)
  deriving DecidableEq, Repr

namespace Verdict

def isAccepted : Verdict → Bool
  | .accepted _ => true
  | .rejected _ => false

def outcome : Verdict → String
  | .accepted criterion => criterion.label
  | .rejected reason => reason.label

end Verdict

end Pushdown
