import Mathlib.Data.List.Perm.Basic
import Pushdown.Proofs.Deepening
import Pushdown.Proofs.FrozenDrafts

/-!
# The order of rules

What can be computed depends on which rules a definition has, not on how they are listed. So runs of
definitions with the same rules agree on what they settle. Where each rule is there as often, every
path goes on in as many ways, so a search that accepts nothing takes as many steps whatever the
order is.
-/

namespace Pushdown

open Search

/-- Definitions declare the same up to the order of their lists; nothing is said of their rules. -/
structure Definition.DeclaresLike (d d' : Definition) : Prop where
  states : d.states.Perm d'.states
  inputAlphabet : d.inputAlphabet.Perm d'.inputAlphabet
  stackAlphabet : d.stackAlphabet.Perm d'.stackAlphabet
  initialState : d.initialState = d'.initialState
  finalStates : d.finalStates.Perm d'.finalStates
  acceptance : d.acceptance = d'.acceptance
  bottom : d.bottom = d'.bottom

/-! ### More rules, more computations -/

section Rules

variable {a a' : Automaton} {d d' : Definition} {registered registered' : List Transition}
  {word : Word} {budget : Budget} {run run' : Run}

theorem Automaton.Follows.of_declaresLike (follows : a.Follows d') (same : d.DeclaresLike d') :
    a.Follows d where
  initialState := follows.initialState.trans same.initialState.symm
  finalStates state := (follows.finalStates state).trans same.finalStates.mem_iff.symm
  acceptance := follows.acceptance.trans same.acceptance.symm
  bottom := follows.bottom.trans same.bottom.symm

theorem Automaton.Follows.initialConfiguration (follows : a.Follows d) (follows' : a'.Follows d) :
    a.initialConfiguration = a'.initialConfiguration := by
  unfold Automaton.initialConfiguration
  rw [follows.initialState, follows.bottom, follows'.initialState, follows'.bottom]

theorem Automaton.Follows.accepting (follows : a.Follows d) (follows' : a'.Follows d)
    {c : Configuration} {criterion : Criterion} (accepting : Accepting a word c criterion) :
    Accepting a' word c criterion := by
  obtain ⟨finished, admitted, holds⟩ := accepting
  refine ⟨finished, ?_, ?_⟩
  · rwa [follows'.acceptance, ← follows.acceptance]
  · cases criterion with
    | finalState => exact (follows'.finalStates _).mpr ((follows.finalStates _).mp holds)
    | emptyStack => exact holds

theorem Computation.more (follows : a.Follows d) (follows' : a'.Follows d)
    (built : a.Built registered) (built' : a'.Built registered') (more : registered ⊆ registered')
    {steps : List Step} {c : Configuration} (h : Computation a word steps c) :
    Computation a' word steps c := by
  induction h with
  | start =>
    rw [follows.initialConfiguration follows']
    exact .start
  | move _ move ih =>
    have known := built'.mem_registered.mp (more (built.mem_registered.mpr move.registered))
    exact ih.move { move with registered := known }

theorem Automaton.AcceptsWithin.more (follows : a.Follows d) (follows' : a'.Follows d)
    (built : a.Built registered) (built' : a'.Built registered') (more : registered ⊆ registered')
    {length : Nat} (within : a.AcceptsWithin word length) : a'.AcceptsWithin word length := by
  obtain ⟨steps, c, criterion, computed, short, accepting⟩ := within
  exact ⟨steps, c, criterion, computed.more follows follows' built built' more, short,
    follows.accepting follows' accepting⟩

theorem Automaton.HasSimplePath.more (follows : a.Follows d) (follows' : a'.Follows d)
    (built : a.Built registered) (built' : a'.Built registered') (more : registered ⊆ registered')
    {length : Nat} (has : a.HasSimplePath word length) : a'.HasSimplePath word length := by
  obtain ⟨steps, c, computed, distinct, long⟩ := has
  exact ⟨steps, c, computed.more follows follows' built built' more, distinct, long⟩

/-- Runs agree on what they settle where their automata have the same transitions. -/
theorem Ending.agree (follows : a.Follows d) (follows' : a'.Follows d)
    (built : a.Built registered) (built' : a'.Built registered')
    (same : registered ⊆ registered' ∧ registered' ⊆ registered)
    (ending : Ending a word budget run) (ending' : Ending a' word budget run')
    (finished : run.steps ≤ budget.maxSteps) (finished' : run'.steps ≤ budget.maxSteps) :
    ((∃ criterion, run.verdict = .accepted criterion) ↔
      ∃ criterion, run'.verdict = .accepted criterion) ∧
    (run.verdict = .rejected .outOfBudget ↔ run'.verdict = .rejected .outOfBudget) := by
  obtain ⟨more, fewer⟩ := same
  have within : ∀ length, a.AcceptsWithin word length ↔ a'.AcceptsWithin word length :=
    fun length => ⟨.more follows follows' built built' more,
      .more follows' follows built' built fewer⟩
  have simple : ∀ length, a.HasSimplePath word length ↔ a'.HasSimplePath word length :=
    fun length => ⟨.more follows follows' built built' more,
      .more follows' follows built' built fewer⟩
  rw [ending.accepted_iff built finished, ending'.accepted_iff built' finished',
    ending.outOfBudget_iff built finished, ending'.outOfBudget_iff built' finished', within, simple]
  exact ⟨Iff.rfl, Iff.rfl⟩

end Rules

/-! ### The same rules as often, as many paths -/

section Paths

variable {a a' : Automaton} {d : Definition} {registered registered' : List Transition}

theorem children_perm (perm : registered.Perm registered') (word : Word) (c : Configuration) :
    (children registered word c).Perm (children registered' word c) := by
  unfold children
  exact (List.Perm.flatMap_left _ fun key _ => perm.filter _).filterMap _

theorem Search.preorder_perm {moves moves' : Configuration → List Step}
    (perm : ∀ c, (moves c).Perm (moves' c)) (room : Nat) (step : Step) (path : Path) :
    (preorder moves room step path).Perm (preorder moves' room step path) := by
  induction room generalizing step path with
  | zero => exact .refl _
  | succ room ih =>
    have children : (fresh moves step path).Perm (fresh moves' step path) :=
      (perm step.configuration).filter _
    exact (children.flatMap fun next _ => ih next (step :: path)).cons _

theorem Automaton.Built.length_paths (built : a.Built registered) (built' : a'.Built registered')
    (follows : a.Follows d) (follows' : a'.Follows d) (perm : registered.Perm registered')
    (word : Word) (maxDepth : Nat) :
    (a.paths word maxDepth).length = (a'.paths word maxDepth).length := by
  have moves : ∀ c, (a.moves word c).Perm (a'.moves word c) := by
    intro c
    rw [built.moves_eq, built'.moves_eq]
    exact children_perm perm word c
  unfold Automaton.paths
  rw [follows.initialConfiguration follows']
  exact (preorder_perm moves _ _ _).length_eq

end Paths

/-- The order of rules has a say in which path is found, not in what is settled. Where definitions
declare the same and list the same rules as often, a run that rejects within its steps does so for
both, in as many steps, and for both or for neither because a path was cut; and where one accepts,
the other does so or is stopped by its limit on steps. Where they have the same rules, however
often, runs that are not stopped agree on whether they accept and on whether a path was cut. -/
theorem run_despite_rule_order {d d' : Definition} {a a' : Automaton}
    (accepted : Automaton.ofDefinition d = .ok a) (accepted' : Automaton.ofDefinition d' = .ok a')
    (same : d.DeclaresLike d') (word : Word) (budget : Budget) (clock clock' : Clock)
    (untimed : budget.timeout = none) :
    let run := a.run word budget clock
    let run' := a'.run word budget clock'
    (d.rules.Perm d'.rules →
      (∀ reason, run.verdict = .rejected reason → run.steps ≤ budget.maxSteps →
        ∃ reason', run'.verdict = .rejected reason' ∧ run'.steps = run.steps ∧
          (reason' = .outOfBudget ↔ reason = .outOfBudget)) ∧
      ((∃ criterion, run.verdict = .accepted criterion) →
        (∃ criterion, run'.verdict = .accepted criterion) ∨
          run'.steps = budget.maxSteps + 1)) ∧
    ((∀ rule, rule ∈ d.rules ↔ rule ∈ d'.rules) →
      ¬ Abandons a word budget clock → ¬ Abandons a' word budget clock' →
      ((∃ criterion, run.verdict = .accepted criterion) ↔
        ∃ criterion, run'.verdict = .accepted criterion) ∧
      (run.verdict = .rejected .outOfBudget ↔ run'.verdict = .rejected .outOfBudget)) := by
  intro run run'
  have built := Automaton.ofDefinition_built accepted
  have built' := Automaton.ofDefinition_built accepted'
  have follows := Automaton.ofDefinition_follows accepted
  have follows' := (Automaton.ofDefinition_follows accepted').of_declaresLike same
  have ending : Ending a word budget run := run_ending untimed
  have ending' : Ending a' word budget run' := run_ending untimed
  have agree (rules : ∀ rule, rule ∈ d.rules ↔ rule ∈ d'.rules)
      (finished : run.steps ≤ budget.maxSteps) (finished' : run'.steps ≤ budget.maxSteps) :=
    have more : d.rules ⊆ d'.rules := fun rule => (rules rule).mp
    have fewer : d'.rules ⊆ d.rules := fun rule => (rules rule).mpr
    ending.agree follows follows' built built' ⟨List.map_subset _ more, List.map_subset _ fewer⟩
      ending' finished finished'
  refine ⟨?_, ?_⟩
  · intro perm
    have rules (rule : Rule) : rule ∈ d.rules ↔ rule ∈ d'.rules := perm.mem_iff
    refine ⟨?_, ?_⟩
    · intro reason rejected finished
      have length := built.length_paths built' follows follows' (perm.map _) word budget.maxDepth
      have steps := ending.steps_of_rejected rejected finished
      have finished' := ending'.steps_le (by rw [← length, ← steps]; exact finished)
      obtain ⟨accepts, spent⟩ := agree rules finished finished'
      cases verdict : run'.verdict with
      | accepted criterion =>
        obtain ⟨criterion, accepted⟩ := accepts.mpr ⟨criterion, verdict⟩
        cases rejected.symm.trans accepted
      | rejected reason' =>
        refine ⟨reason', rfl, ?_, ?_⟩
        · rw [ending'.steps_of_rejected verdict finished', ← length, steps]
        · rw [rejected, verdict, Verdict.rejected.injEq, Verdict.rejected.injEq] at spent
          exact spent.symm
    · rintro ⟨criterion, accepted⟩
      have finished := ending.steps_of_accepted accepted
      rcases run_steps a' word clock' untimed with ⟨-, stopped⟩ | ⟨-, finished'⟩
      · exact Or.inr stopped
      · exact Or.inl ((agree rules finished finished').1.mp ⟨criterion, accepted⟩)
  · intro rules unstopped unstopped'
    exact agree rules (steps_le_of_not_abandons untimed unstopped)
      (steps_le_of_not_abandons untimed unstopped')

/-! ### A definition with a choice -/

/-- It reads one `a`, in one way for each destination. -/
def Definition.fork (destinations : List State) : Definition where
  name := "Fork"
  states := ["p", "q", "r"]
  inputAlphabet := ['a']
  stackAlphabet := []
  initialState := "p"
  finalStates := ["q", "r"]
  acceptance := .finalState
  bottom := none
  rules := destinations.map fun q => ⟨"p", some 'a', none, q, []⟩

def Automaton.fork (destinations : List State) : Automaton where
  name := "Fork"
  states := ["p", "q", "r"]
  inputAlphabet := ['a']
  initialState := "p"
  finalStates := ["q", "r"]
  acceptance := .finalState
  bottom := none
  table := ⟨[(⟨"p", some 'a', none⟩, destinations.map (⟨·, []⟩))]⟩

/-- With its rules in either order the definition accepts `a`, in different states, and it rejects
`aa` in three steps. With each rule twice it rejects `aa` too, in five steps. -/
theorem run_despite_rule_order_fork :
    let run destinations word := (Automaton.fork destinations).run word ⟨9, 9, none⟩ .still
    let first := run ["q", "r"]
    let second := run ["r", "q"]
    let twice := run ["q", "r", "q", "r"]
    (∃ criterion, (second ['a']).verdict = .accepted criterion) ∧
    (first ['a']).trace.last? ≠ (second ['a']).trace.last? ∧
    (first ['a', 'a']).steps = 3 ∧ (second ['a', 'a']).steps = (first ['a', 'a']).steps ∧
    ¬ (∃ criterion, (twice ['a', 'a']).verdict = .accepted criterion) ∧
    (twice ['a', 'a']).steps = 5 := by
  intro run first second twice
  have alike (destinations destinations' : List State) :
      (Definition.fork destinations).DeclaresLike (Definition.fork destinations') :=
    ⟨.refl _, .refl _, .refl _, rfl, .refl _, rfl, rfl⟩
  have one : Automaton.ofDefinition (.fork ["q", "r"]) = .ok (.fork ["q", "r"]) := rfl
  have other : Automaton.ofDefinition (.fork ["r", "q"]) = .ok (.fork ["r", "q"]) := rfl
  have double : Automaton.ofDefinition (.fork ["q", "r", "q", "r"]) =
      .ok (.fork ["q", "r", "q", "r"]) := rfl
  have perm : (Definition.fork ["q", "r"]).rules.Perm (Definition.fork ["r", "q"]).rules :=
    .swap _ _ _
  have rules (rule : Rule) : rule ∈ (Definition.fork ["q", "r"]).rules ↔
      rule ∈ (Definition.fork ["q", "r", "q", "r"]).rules := by
    simp only [Definition.fork, List.map_cons, List.map_nil, List.mem_cons, List.not_mem_nil,
      or_false]
    tauto
  have accepts : (first ['a']).verdict = .accepted .finalState := by decide +kernel
  have rejects : (first ['a', 'a']).verdict = .rejected (.stuck 1) := by decide +kernel
  have three : (first ['a', 'a']).steps = 3 := by decide +kernel
  have five : (twice ['a', 'a']).steps = 5 := by decide +kernel
  obtain ⟨swapped, -⟩ :=
    run_despite_rule_order one other (alike _ _) ['a'] ⟨9, 9, none⟩ .still .still rfl
  obtain ⟨swapped', -⟩ :=
    run_despite_rule_order one other (alike _ _) ['a', 'a'] ⟨9, 9, none⟩ .still .still rfl
  obtain ⟨-, doubled⟩ :=
    run_despite_rule_order one double (alike _ _) ['a', 'a'] ⟨9, 9, none⟩ .still .still rfl
  have accepted : ∃ criterion, (second ['a']).verdict = .accepted criterion :=
    ((swapped perm).2 ⟨_, accepts⟩).resolve_right (by decide +kernel)
  obtain ⟨reason, rejected, steps, -⟩ := (swapped' perm).1 _ rejects (by decide +kernel)
  have unstopped : ¬ Abandons (.fork ["q", "r"]) ['a', 'a'] ⟨9, 9, none⟩ .still := by
    rw [abandons_iff rfl]
    decide +kernel
  have unstopped' : ¬ Abandons (.fork ["q", "r", "q", "r"]) ['a', 'a'] ⟨9, 9, none⟩ .still := by
    rw [abandons_iff rfl]
    decide +kernel
  have unaccepted : ¬ ∃ criterion, (first ['a', 'a']).verdict = .accepted criterion := by
    rw [rejects]
    exact nofun
  exact ⟨accepted, by decide +kernel, three, steps,
    mt (doubled rules unstopped unstopped').1.mpr unaccepted, five⟩

end Pushdown
