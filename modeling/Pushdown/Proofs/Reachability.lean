import Mathlib.Logic.Relation
import Mathlib.Data.String.Basic
import Pushdown.Definition.Reachability
import Pushdown.Proofs.Listings

/-!
# What surveys find

A survey comes to an end, after as many rounds as there are rules and one more at the latest. What
it has visited then are the states that rules lead to from where it started: it keeps to these, and
where rules lead from a state that it has visited, it has been or has still to go.
-/

namespace Pushdown

/-- States are sorted by name. -/
theorem State.sorted_mergeSort (states : List State) :
    (states.mergeSort fun a b => (compare a b).isLE).Pairwise (· ≤ ·) :=
  (pairwise_mergeSort_isLE states).imp Std.LawfulBCmp.isLE_iff_le.mp

def Rule.Connects (rules : List Rule) (state next : State) : Prop :=
  ∃ rule ∈ rules, rule.origin = state ∧ rule.destination = next

def Rule.Lead (rules : List Rule) : State → State → Prop :=
  Relation.ReflTransGen (Rule.Connects rules)

theorem Rule.mem_destinations {rules : List Rule} {state next : State} :
    next ∈ Rule.destinations rules state ↔ Rule.Connects rules state next := by
  simp [Rule.destinations, Rule.Connects, and_assoc]

namespace Survey

variable {rules : List Rule} {first state : State} {visited pending : List State}
  {survey next : Survey}

theorem mem_pending_visit {other : State} : other ∈ (survey.visit rules state).pending ↔
    Rule.Connects rules state other ∧ other ∉ state :: survey.visited ∨ other ∈ survey.pending := by
  simp only [visit, List.mem_append, List.mem_reverse, List.mem_filter, Rule.mem_destinations,
    decide_eq_true_eq]

theorem pending_of_round?_eq_none (ended : survey.round? rules = none) : survey.pending = [] := by
  obtain ⟨visited, pending⟩ := survey
  cases pending with
  | nil => rfl
  | cons state pending =>
    by_cases known : state ∈ visited <;> simp [round?, known] at ended

/-! ### Rounds -/

def after (rules : List Rule) : Nat → Survey → Option Survey
  | 0, survey => some survey
  | rounds + 1, survey => (survey.round? rules).bind (after rules rounds)

/-- A survey ends, and its weight is a limit on the rounds that it takes. -/
theorem after_finish (rules : List Rule) (survey : Survey) :
    (survey.finish rules).pending = [] ∧
      ∃ rounds ≤ survey.weight rules, after rules rounds survey = some (survey.finish rules) := by
  fun_induction finish rules survey with
  | case1 survey ended => exact ⟨pending_of_round?_eq_none ended, 0, Nat.zero_le _, rfl⟩
  | case2 survey next taken ih =>
    obtain ⟨ended, rounds, few, came⟩ := ih
    refine ⟨ended, rounds + 1, Nat.lt_of_le_of_lt few (weight_of_round? taken), ?_⟩
    rw [after, taken]
    exact came

/-! ### What has been visited -/

/-- A survey from a state keeps to the states that rules lead to from there, and overlooks none of
those that come next to a state that it has visited. -/
structure Sound (rules : List Rule) (first : State) (survey : Survey) : Prop where
  begun : first ∈ survey.visited ∨ first ∈ survey.pending
  visited : ∀ state ∈ survey.visited, Rule.Lead rules first state
  pending : ∀ state ∈ survey.pending, Rule.Lead rules first state
  closed : ∀ state ∈ survey.visited, ∀ next, Rule.Connects rules state next →
    next ∈ survey.visited ∨ next ∈ survey.pending

theorem sound_start (rules : List Rule) (first : State) : Sound rules first (start first) where
  begun := Or.inr (List.mem_singleton_self first)
  visited := nofun
  pending state member := by
    obtain rfl := List.mem_singleton.mp member
    exact .refl
  closed := nofun

/-- Nothing is lost from sight when a state is taken off the stack that was visited before. -/
theorem Sound.pass (sound : Sound rules first ⟨visited, state :: pending⟩)
    (known : state ∈ visited) : Sound rules first ⟨visited, pending⟩ := by
  have kept {other : State} (inSight : other ∈ visited ∨ other ∈ state :: pending) :
      other ∈ visited ∨ other ∈ pending := by
    rcases inSight with seen | waits
    · exact Or.inl seen
    · rcases List.mem_cons.mp waits with rfl | later
      · exact Or.inl known
      · exact Or.inr later
  exact ⟨kept sound.begun, sound.visited, (List.forall_mem_cons.mp sound.pending).2,
    fun other seen next connects => kept (sound.closed other seen next connects)⟩

theorem Sound.visit (sound : Sound rules first ⟨visited, state :: pending⟩) :
    Sound rules first (visit rules ⟨visited, pending⟩ state) := by
  obtain ⟨here, later⟩ := List.forall_mem_cons.mp sound.pending
  have kept {other : State} (inSight : other ∈ visited ∨ other ∈ state :: pending) :
      other ∈ state :: visited ∨ other ∈ (Survey.visit rules ⟨visited, pending⟩ state).pending := by
    rw [mem_pending_visit]
    rw [List.mem_cons] at inSight ⊢
    tauto
  refine ⟨kept sound.begun, List.forall_mem_cons.mpr ⟨here, sound.visited⟩, ?_, ?_⟩
  · intro other waits
    rcases mem_pending_visit.mp waits with ⟨connects, -⟩ | old
    · exact here.tail connects
    · exact later other old
  · intro other seen next connects
    rcases List.mem_cons.mp seen with rfl | old
    · -- Where the new state leads has been visited, or it is put on the stack now.
      by_cases known : next ∈ other :: visited
      · exact Or.inl known
      · exact Or.inr (mem_pending_visit.mpr (Or.inl ⟨connects, known⟩))
    · exact kept (sound.closed other old next connects)

theorem Sound.round (sound : Sound rules first survey) (taken : survey.round? rules = some next) :
    Sound rules first next := by
  obtain ⟨visited, pending⟩ := survey
  obtain ⟨state, pending, rfl, ⟨known, rfl⟩ | ⟨-, rfl⟩⟩ := of_round?_eq_some taken
  · exact sound.pass known
  · exact sound.visit

theorem Sound.finish (sound : Sound rules first survey) :
    Sound rules first (survey.finish rules) := by
  fun_induction Survey.finish rules survey with
  | case1 survey ended => exact sound
  | case2 survey next taken ih => exact ih (sound.round taken)

/-- With nothing pending, a survey has visited all that it could. -/
theorem Sound.mem_visited (sound : Sound rules first survey) (ended : survey.pending = []) :
    state ∈ survey.visited ↔ Rule.Lead rules first state := by
  obtain ⟨begun, visited, -, closed⟩ := sound
  simp only [ended, List.not_mem_nil, or_false] at begun closed
  refine ⟨visited state, ?_⟩
  intro lead
  induction lead with
  | refl => exact begun
  | tail _ connects ih => exact closed _ ih _ connects

end Survey

namespace Definition

variable {d : Definition} {state : State}

/-- Rules lead to a state from the initial one. -/
def Reaches (d : Definition) (state : State) : Prop := Rule.Lead d.rules d.initialState state

theorem mem_reachableStates : state ∈ d.reachableStates ↔ d.Reaches state :=
  (Survey.sound_start d.rules d.initialState).finish.mem_visited (Survey.after_finish _ _).1

theorem mem_unreachableStates :
    state ∈ d.unreachableStates ↔ state ∈ d.states ∧ ¬ d.Reaches state := by
  simp [unreachableStates, mem_reachableStates]

theorem unreachableStates_perm (d : Definition) :
    d.unreachableStates.Perm (d.states.filter (· ∉ d.reachableStates)) :=
  List.mergeSort_perm _ _

theorem sorted_unreachableStates (d : Definition) : d.unreachableStates.Pairwise (· ≤ ·) :=
  State.sorted_mergeSort _

/-- The survey of a definition ends after as many rounds as it has rules and one more, at the
latest, and has then visited the states that rules lead to. Those that are listed as unreachable are
the others among the declared ones, sorted by name, each as often as it is declared. -/
theorem survey_settles_unreachableStates (d : Definition) :
    (∃ rounds ≤ d.rules.length + 1, ∃ visited,
      Survey.after d.rules rounds (.start d.initialState) = some ⟨visited, []⟩ ∧
        ∀ state, state ∈ visited ↔ d.Reaches state) ∧
    d.unreachableStates.Pairwise (· ≤ ·) ∧
    (∀ state, d.Reaches state → state ∉ d.unreachableStates) ∧
    ∀ state, ¬ d.Reaches state → d.unreachableStates.count state = d.states.count state := by
  refine ⟨?_, d.sorted_unreachableStates, ?_, ?_⟩
  · obtain ⟨ended, rounds, few, came⟩ := Survey.after_finish d.rules (.start d.initialState)
    have weight : (Survey.start d.initialState).weight d.rules = d.rules.length + 1 := by
      simp [Survey.weight, Survey.start]
    refine ⟨rounds, weight ▸ few, d.reachableStates, ?_, fun state => mem_reachableStates⟩
    rw [came, reachableStates, ← ended]
  · intro state reached listed
    exact (mem_unreachableStates.mp listed).2 reached
  · intro state unreached
    rw [d.unreachableStates_perm.count_eq]
    exact List.count_filter (by simpa [mem_reachableStates] using unreached)

end Definition

end Pushdown
