import Pushdown.Proofs.FrozenDrafts
import Pushdown.Proofs.Reachability
import Pushdown.Proofs.Reaching
import Pushdown.Proofs.Traces

/-!
# Unreachable states

A run keeps to states that rules lead to. What a definition says of the others can be left out: it
is accepted as before, and its automaton is alike where runs take place, so all runs are the same.
-/

namespace Pushdown

open Search

/-- A definition without the states that no rules lead to, and without the rules that leave them. -/
def Definition.pruned (d : Definition) : Definition :=
  let unreachable := d.unreachableStates
  { d with
    states := d.states.filter (· ∉ unreachable)
    finalStates := d.finalStates.filter (· ∉ unreachable)
    rules := d.rules.filter (·.origin ∉ unreachable) }

/-! ### Automata that are alike -/

/-- Two automata do the same in configurations of a kind, and runs of the first keep to these. -/
structure Automaton.Alike (a a' : Automaton) (word : Word) (kind : Configuration → Prop) :
    Prop where
  initialConfiguration : a'.initialConfiguration = a.initialConfiguration
  acceptance : a'.acceptance = a.acceptance
  begins : kind a.initialConfiguration
  isFinal : ∀ c, kind c → a'.isFinal c.state = a.isFinal c.state
  moves : ∀ c, kind c → a'.moves word c = a.moves word c
  keeps : ∀ c, kind c → ∀ step ∈ a.moves word c, kind step.configuration

theorem Search.firstOutcome_congr {visit visit' : Step → Progress → Outcome × Progress}
    {steps : List Step} (same : ∀ step ∈ steps, visit' step = visit step) :
    firstOutcome visit' steps = firstOutcome visit steps := by
  induction steps with
  | nil => rfl
  | cons step rest ih =>
    obtain ⟨first, rest⟩ := List.forall_mem_cons.mp same
    funext progress
    rw [firstOutcome, firstOutcome, first, ih rest]

namespace Automaton.Alike

variable {a a' : Automaton} {word : Word} {kind : Configuration → Prop} {budget : Budget}
  {clock clock' : Clock}

theorem accepts?_eq (alike : a.Alike a' word kind) {c : Configuration} (inKind : kind c) :
    a'.accepts? word c = a.accepts? word c := by
  unfold accepts? evaluate
  rw [alike.acceptance, alike.isFinal c inKind]

theorem diagnose_eq (alike : a.Alike a' word kind) (c : Configuration) (inputLength : Nat)
    (hadMoves : Bool) : a'.diagnose c inputLength hadMoves = a.diagnose c inputLength hadMoves := by
  unfold diagnose
  rw [alike.acceptance]

/-- From a configuration of the kind, searches agree if the budget is spent for both or for
neither. -/
theorem visit_eq (alike : a.Alike a' word kind)
    (spent : budget.isSpent clock' = budget.isSpent clock) (room : Nat) (path : Path) {step : Step}
    (inKind : kind step.configuration) :
    visit a' word budget clock' room path step = visit a word budget clock room path step := by
  induction room generalizing path step with
  | zero =>
    funext progress
    unfold visit
    simp only [spent, alike.accepts?_eq inKind, alike.moves _ inKind, alike.diagnose_eq]
    cases (a.moves word step.configuration).filter (!onPath (step :: path) ·.configuration) <;> rfl
  | succ room ih =>
    have below : ∀ next ∈ fresh (a.moves word) step path,
        visit a' word budget clock' room (step :: path) next =
          visit a word budget clock room (step :: path) next := by
      intro next among
      exact ih (step :: path) (alike.keeps _ inKind next (List.mem_of_mem_filter among))
    funext progress
    -- `visit` spells out which moves are fresh.
    unfold fresh at below
    unfold visit
    simp only [spent, alike.accepts?_eq inKind, alike.moves _ inKind, alike.diagnose_eq]
    split
    · rfl
    split
    · rfl
    cases moves : (a.moves word step.configuration).filter
        (!onPath (step :: path) ·.configuration) with
    | nil => rfl
    | cons next others => exact congrFun (firstOutcome_congr (moves ▸ below)) _

theorem run_eq (alike : a.Alike a' word kind)
    (spent : budget.isSpent clock' = budget.isSpent clock) :
    a'.run word budget clock' = a.run word budget clock := by
  unfold run search
  rw [alike.initialConfiguration, alike.visit_eq spent _ _ alike.begins]

end Automaton.Alike

/-! ### Where runs take place -/

namespace Definition

variable {d : Definition} {a a' : Automaton} {word : Word} {c c' : Configuration}

theorem Reaches.not_mem_unreachableStates {state : State} (reached : d.Reaches state) :
    state ∉ d.unreachableStates :=
  fun listed => (mem_unreachableStates.mp listed).2 reached

theorem Reaches.follow {rule : Rule} (reached : d.Reaches rule.origin) (member : rule ∈ d.rules) :
    d.Reaches rule.destination :=
  reached.tail ⟨rule, member, rfl, rfl⟩

theorem Reaches.move (built : a.Built (d.rules.map Rule.transition)) (reached : d.Reaches c.state)
    (moves : a.Moves word c c') : d.Reaches c'.state := by
  obtain ⟨rule, member, i, j, below, -, rfl, rfl⟩ := built.moves_iff.mp moves
  exact reached.follow member

theorem reaches_initialState (accepted : Automaton.ofDefinition d = .ok a) :
    d.Reaches a.initialState := by
  rw [(Automaton.ofDefinition_follows accepted).initialState]
  exact .refl

theorem reaches_of_computed (accepted : Automaton.ofDefinition d = .ok a)
    (computed : a.Reaches word c) : d.Reaches c.state :=
  computed.keeps (reaches_initialState accepted)
    fun _ _ => Reaches.move (Automaton.ofDefinition_built accepted)

/-! ### What is left of a definition -/

theorem Grounded.pruned (grounded : d.Grounded) : d.pruned.Grounded := by
  have kept {state : State} (declared : state ∈ d.states) (reached : state ∉ d.unreachableStates) :
      state ∈ d.pruned.states := by
    simpa [Definition.pruned] using ⟨declared, reached⟩
  obtain ⟨initial, finals, ends, bottom, reads, pops, pushes⟩ := grounded
  have fewer {rule : Rule} (member : rule ∈ d.pruned.rules) : rule ∈ d.rules :=
    List.mem_of_mem_filter member
  refine ⟨?_, ?_, ?_, bottom, fun rule member => reads rule (fewer member),
    fun rule member => pops rule (fewer member), fun rule member => pushes rule (fewer member)⟩
  · have reached : d.Reaches d.initialState := .refl
    exact kept initial reached.not_mem_unreachableStates
  · intro state member
    obtain ⟨final, reached⟩ : state ∈ d.finalStates ∧ state ∉ d.unreachableStates := by
      simpa [Definition.pruned] using member
    exact kept (finals state final) reached
  · intro rule member
    obtain ⟨-, reached⟩ : rule ∈ d.rules ∧ rule.origin ∉ d.unreachableStates := by
      simpa [Definition.pruned] using member
    obtain ⟨origin, destination⟩ := ends rule (fewer member)
    refine ⟨kept origin reached, kept destination ?_⟩
    -- A declared origin that is not unreachable is reached, and so is where the rule leads.
    have reached : d.Reaches rule.origin := by
      by_contra unreached
      exact reached (mem_unreachableStates.mpr ⟨origin, unreached⟩)
    exact (reached.follow (fewer member)).not_mem_unreachableStates

/-- All rules on the way to a state that is reached are left, so pruning is done after once. -/
theorem unreachableStates_pruned (d : Definition) : d.pruned.unreachableStates = [] := by
  have reaches {state : State} (reached : d.Reaches state) : d.pruned.Reaches state := by
    induction reached with
    | refl => exact .refl
    | tail before connects ih =>
      obtain ⟨rule, member, rfl, rfl⟩ := connects
      have origin : d.Reaches rule.origin := before
      have kept : rule ∈ d.pruned.rules := by
        simpa [pruned] using ⟨member, origin.not_mem_unreachableStates⟩
      exact Reaches.follow ih kept
  rw [List.eq_nil_iff_forall_not_mem]
  intro state listed
  obtain ⟨declared, unreached⟩ := mem_unreachableStates.mp listed
  obtain ⟨declared, kept⟩ : state ∈ d.states ∧ state ∉ d.unreachableStates := by
    simpa [pruned] using declared
  exact kept (mem_unreachableStates.mpr ⟨declared, fun reached => unreached (reaches reached)⟩)

/-- Where runs take place, the rules that are left are tried as before. -/
theorem children_pruned (reached : d.Reaches c.state) (word : Word) :
    children (d.pruned.rules.map Rule.transition) word c =
      children (d.rules.map Rule.transition) word c := by
  unfold children
  congr 1
  apply List.flatMap_congr
  intro key among
  obtain ⟨leaves, -⟩ := mem_keysTried.mp among
  rw [List.filter_map, List.filter_map, pruned, List.filter_filter]
  congr 1
  apply List.filter_congr
  intro rule _
  by_cases same : rule.transition.key = key
  · have stays : rule.origin ∉ d.unreachableStates := by
      rw [show rule.origin = c.state from (congrArg _ same).trans leaves]
      exact reached.not_mem_unreachableStates
    simp [same, stays]
  · simp [same]

theorem alike_pruned (accepted : Automaton.ofDefinition d = .ok a)
    (accepted' : Automaton.ofDefinition d.pruned = .ok a') (word : Word) :
    a.Alike a' word (d.Reaches ·.state) := by
  have built := Automaton.ofDefinition_built accepted
  have built' := Automaton.ofDefinition_built accepted'
  have follows := Automaton.ofDefinition_follows accepted
  have follows' := Automaton.ofDefinition_follows accepted'
  refine ⟨?_, follows'.acceptance.trans follows.acceptance.symm,
    reaches_initialState accepted, ?_, ?_, ?_⟩
  · unfold Automaton.initialConfiguration
    rw [follows.initialState, follows.bottom, follows'.initialState, follows'.bottom]
    rfl
  · intro c reached
    have final : c.state ∈ d.pruned.finalStates ↔ c.state ∈ d.finalStates := by
      simp [pruned, reached.not_mem_unreachableStates]
    simp only [Automaton.isFinal, follows.finalStates, follows'.finalStates, final]
  · intro c reached
    rw [built.moves_eq, built'.moves_eq, children_pruned reached]
  · intro c reached step among
    obtain ⟨t, -, move⟩ := built.mem_moves.mp among
    exact reached.move built ⟨t, move⟩

end Definition

/-- Unreachable states have no say in any run. A definition that is accepted is accepted without
them as well, and the runs of both automata are the same, in their verdicts, traces and steps: under
every budget without a timeout, and under any that sees the same clock. No configuration of a trace
is in an unreachable state. -/
theorem run_pruned {d : Definition} {a : Automaton}
    (accepted : Automaton.ofDefinition d = .ok a) :
    ∃ a', Automaton.ofDefinition d.pruned = .ok a' ∧ ∀ (word : Word) (budget : Budget)
      (clock : Clock),
      (∀ clock', budget.timeout = none ∨ clock' = clock →
        a'.run word budget clock' = a.run word budget clock) ∧
      ∀ step ∈ (a.run word budget clock).trace.steps,
        step.configuration.state ∉ d.unreachableStates := by
  have grounded := Automaton.exists_ofDefinition_iff.mp ⟨a, accepted⟩
  obtain ⟨a', accepted'⟩ := Automaton.exists_ofDefinition_iff.mpr grounded.pruned
  refine ⟨a', accepted', fun word budget clock => ⟨?_, ?_⟩⟩
  · intro clock' same
    apply (Definition.alike_pruned accepted accepted' word).run_eq
    rcases same with untimed | rfl
    · funext n
      rw [isSpent_untimed untimed, isSpent_untimed untimed]
    · rfl
  · intro step member
    obtain ⟨path, trace, opened, -⟩ := run_trace a word budget clock
    rw [trace, List.mem_reverse] at member
    have opened := opened.resolve_left (List.ne_nil_of_mem member)
    have computed := (opened.enters member).computed (Automaton.ofDefinition_built accepted)
    exact (Definition.reaches_of_computed accepted computed).not_mem_unreachableStates

/-! ### A definition with an unreachable state -/

/-- Nothing leads to `u`, though it is final and has a rule that leaves it. -/
def Definition.aside : Definition where
  name := "Aside"
  states := ["p", "u", "q"]
  inputAlphabet := ['a']
  stackAlphabet := []
  initialState := "p"
  finalStates := ["u", "q"]
  acceptance := .finalState
  bottom := none
  rules := [⟨"u", none, none, "p", []⟩, ⟨"p", some 'a', none, "q", []⟩]

def Automaton.aside : Automaton where
  name := "Aside"
  states := ["p", "u", "q"]
  inputAlphabet := ['a']
  initialState := "p"
  finalStates := ["u", "q"]
  acceptance := .finalState
  bottom := none
  table := ⟨[(⟨"u", none, none⟩, [⟨"p", []⟩]), (⟨"p", some 'a', none⟩, [⟨"q", []⟩])]⟩

/-- Without `u`, the definition has two states and one rule left, and its run on `a` is the run of
`Automaton.aside`. -/
theorem run_pruned_aside :
    Definition.aside.unreachableStates = ["u"] ∧
    Definition.aside.pruned.rules = [⟨"p", some 'a', none, "q", []⟩] ∧
    ∃ a', Automaton.ofDefinition Definition.aside.pruned = .ok a' ∧ a'.states = ["p", "q"] ∧
      a'.run ['a'] .standard .still = Automaton.aside.run ['a'] .standard .still ∧
      (a'.run ['a'] .standard .still).verdict = .accepted .finalState ∧
      ∀ step ∈ (Automaton.aside.run ['a'] .standard .still).trace.steps,
        step.configuration.state ∉ ["u"] := by
  have unreachable : Definition.aside.unreachableStates = ["u"] := by decide +kernel
  have accepted : Automaton.ofDefinition .aside = .ok .aside := rfl
  obtain ⟨a', accepted', same⟩ := run_pruned accepted
  obtain ⟨runs, keeps⟩ := same ['a'] .standard .still
  have run := runs .still (Or.inl rfl)
  have states : (Automaton.ofDefinition Definition.aside.pruned).map Automaton.states =
      .ok ["p", "q"] := by decide +kernel
  rw [accepted'] at states
  refine ⟨unreachable, by decide +kernel, a', accepted', Except.ok.inj states, run, ?_,
    unreachable ▸ keeps⟩
  rw [run]
  decide +kernel

end Pushdown
