import Pushdown.Definition

/-!
# Reachable states

The states that rules lead to from the initial state, whatever is read or popped on the way. Rules
count also where they name states that are not declared.

A survey keeps the states that it has still to look at on a stack. A state may wait there more than
once: it is visited when it first comes up, and passed over when it comes up again.
-/

namespace Pushdown

def Rule.destinations (rules : List Rule) (state : State) : List State :=
  (rules.filter (·.origin = state)).map Rule.destination

structure Survey where
  visited : List State
  /-- The states that wait to be looked at, the next one first. -/
  pending : List State
  deriving DecidableEq, Repr

namespace Survey

def start (state : State) : Survey := ⟨[], [state]⟩

/-- Visits a state and puts where its rules lead on the stack, in their order, so that the last of
them is followed first. -/
def visit (rules : List Rule) (survey : Survey) (state : State) : Survey :=
  let visited := state :: survey.visited
  let ahead := (Rule.destinations rules state).filter (· ∉ visited)
  { visited, pending := ahead.reverse ++ survey.pending }

def round? (rules : List Rule) (survey : Survey) : Option Survey :=
  match survey.pending with
  | [] => none
  | state :: pending =>
    let rest := { survey with pending }
    if state ∈ survey.visited then some rest else some (rest.visit rules state)

/-- The rules that are not followed yet and the states that are pending, counted together. -/
def weight (rules : List Rule) (survey : Survey) : Nat :=
  (rules.filter (·.origin ∉ survey.visited)).length + survey.pending.length

/-- All that a round does: the next state was visited before, or it is visited now. -/
theorem of_round?_eq_some {rules : List Rule} {survey next : Survey}
    (taken : survey.round? rules = some next) :
    ∃ state pending, survey.pending = state :: pending ∧
      (state ∈ survey.visited ∧ next = ⟨survey.visited, pending⟩ ∨
        state ∉ survey.visited ∧ next = visit rules ⟨survey.visited, pending⟩ state) := by
  obtain ⟨visited, pending⟩ := survey
  cases pending with
  | nil => cases taken
  | cons state pending =>
    refine ⟨state, pending, rfl, ?_⟩
    by_cases known : state ∈ visited
    · exact Or.inl ⟨known, by simpa [round?, known] using taken.symm⟩
    · exact Or.inr ⟨known, by simpa [round?, known] using taken.symm⟩

theorem length_unfollowed {visited : List State} {state : State} (new : state ∉ visited)
    (rules : List Rule) :
    (rules.filter (·.origin ∉ visited)).length = (Rule.destinations rules state).length +
      (rules.filter (·.origin ∉ state :: visited)).length := by
  induction rules with
  | nil => rfl
  | cons rule rest ih =>
    by_cases leaves : rule.origin = state
    · simp [Rule.destinations, leaves, new] at ih ⊢
      omega
    · by_cases known : rule.origin ∈ visited <;>
        simp [Rule.destinations, leaves, known] at ih ⊢ <;> omega

theorem weight_visit (rules : List Rule) (visited pending : List State) (state : State) :
    (visit rules ⟨visited, pending⟩ state).weight rules =
      (rules.filter (·.origin ∉ state :: visited)).length +
        (((Rule.destinations rules state).filter (· ∉ state :: visited)).length +
          pending.length) := by
  simp [weight, visit]

/-- A new state brings in at most as many states as it has rules, and these are followed then. -/
theorem weight_of_round? {rules : List Rule} {survey next : Survey}
    (taken : survey.round? rules = some next) : next.weight rules < survey.weight rules := by
  obtain ⟨state, pending, waits, ⟨-, rfl⟩ | ⟨new, rfl⟩⟩ := of_round?_eq_some taken
  · simp [weight, waits]
  · have followed := length_unfollowed new rules
    have few := List.length_filter_le (· ∉ state :: survey.visited) (Rule.destinations rules state)
    rw [weight_visit, weight, waits, List.length_cons]
    omega

def finish (rules : List Rule) (survey : Survey) : Survey :=
  match _taken : survey.round? rules with
  | none => survey
  | some next => finish rules next
termination_by survey.weight rules
decreasing_by exact weight_of_round? _taken

end Survey

namespace Definition

def reachableStates (d : Definition) : List State :=
  (Survey.finish d.rules (.start d.initialState)).visited

/-- The declared states that no rules lead to, sorted by name, each as often as it is declared. -/
def unreachableStates (d : Definition) : List State :=
  let reachable := d.reachableStates
  (d.states.filter (· ∉ reachable)).mergeSort fun a b => (compare a b).isLE

end Definition

end Pushdown
