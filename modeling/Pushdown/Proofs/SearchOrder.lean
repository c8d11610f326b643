import Pushdown.Proofs.Verdicts

/-!
# The order of the search

A run looks at the computations without detours one after another, in depth-first preorder, and
counts each that it looks at. Its verdict, its trace and its steps are read off that list.
-/

namespace Pushdown

open Search

variable {a : Automaton} {word : Word} {registered : List Transition}

/-- The paths of legal moves without detours, first steps first, of at most `maxDepth`
configurations, though always with the first one: in depth-first preorder, where from each
configuration the moves are ordered as `children` orders them. -/
def enumeration (a : Automaton) (registered : List Transition) (word : Word) (maxDepth : Nat) :
    List (List Step) :=
  (preorder (children registered word) (max 1 maxDepth - 1) ⟨a.initialConfiguration, none⟩ []).map
    List.reverse

def endsAccepted (a : Automaton) (word : Word) (steps : List Step) : Bool :=
  steps.getLast?.any fun last =>
    last.configuration.cursor = word.length && (a.evaluate last.configuration).isSome

theorem endsAccepted_reverse (path : Path) :
    endsAccepted a word path.reverse = (accepted? a word path).isSome := by
  cases path with
  | nil => rfl
  | cons step path =>
    by_cases finished : step.configuration.cursor = word.length <;>
      simp [endsAccepted, accepted?, Automaton.accepts?, finished]

theorem Automaton.Built.enumeration_eq (built : a.Built registered) (word : Word) (maxDepth : Nat) :
    enumeration a registered word maxDepth = (a.paths word maxDepth).map List.reverse := by
  have ordered : a.moves word = children registered word := funext (built.moves_eq word)
  have room : max 1 maxDepth - 1 = maxDepth - 1 := by omega
  rw [enumeration, Automaton.paths, ordered, room]

theorem findIdx?_accepted {before : List Path} (path : Path) (after : List Path)
    (rejected : ∀ q ∈ before, accepted? a word q = none) :
    ((before ++ path :: after).map List.reverse).findIdx? (endsAccepted a word) =
      if (accepted? a word path).isSome then some before.length
      else (after.findIdx? fun q => (accepted? a word q).isSome).map (· + 1 + before.length) := by
  have none_before : before.findIdx? (fun q => (accepted? a word q).isSome) = none := by
    rw [List.findIdx?_eq_none_iff]
    intro q member
    rw [rejected q member, Option.isSome_none]
  have same : endsAccepted a word ∘ List.reverse = fun q => (accepted? a word q).isSome :=
    funext endsAccepted_reverse
  rw [List.findIdx?_map, same, List.findIdx?_append, none_before, List.findIdx?_cons]
  split <;> simp [Function.comp_def]

/-- The position of the first path that is accepted and the number of paths decide how a run may
end, and with which path. -/
theorem Ending.follows {budget : Budget} {run : Run} (ending : Ending a word budget run) :
    let listed := (a.paths word budget.maxDepth).map List.reverse
    let first := listed.findIdx? (endsAccepted a word)
    (∀ i, first = some i → i + 1 ≤ budget.maxSteps →
      (∃ criterion, run.verdict = .accepted criterion) ∧ listed[i]? = some run.trace.steps ∧
        run.steps = i + 1) ∧
    (first = none → listed.length ≤ budget.maxSteps →
      (∃ reason, run.verdict = .rejected reason) ∧ listed.getLast? = some run.trace.steps ∧
        run.steps = listed.length) ∧
    ((∀ i, first = some i → budget.maxSteps < i + 1) →
      (first = none → budget.maxSteps < listed.length) →
      run.verdict = .rejected .outOfBudget ∧ run.steps = budget.maxSteps + 1 ∧
        ∃ steps, listed[budget.maxSteps]? = some steps ∧ run.trace.steps = steps.dropLast) := by
  intro listed first
  cases ending with
  | @accepted before after path criterion split rejected accepted cheap =>
    have position : first = some before.length := by
      have found := findIdx?_accepted path after rejected
      rwa [accepted, Option.isSome_some, if_pos rfl, ← split] at found
    refine ⟨?_, ?_, ?_⟩
    · intro i found _
      obtain rfl : before.length = i := Option.some.inj (position.symm.trans found)
      exact ⟨⟨criterion, rfl⟩, by simp [listed, split], rfl⟩
    · intro none
      rw [position] at none
      cases none
    · intro late
      have := late _ position
      omega
  | @exhausted step path reason rejected cheap last why =>
    have none : first = none := by
      rw [List.findIdx?_eq_none_iff, List.forall_mem_map]
      intro q member
      rw [endsAccepted_reverse, rejected q member, Option.isSome_none]
    have size : listed.length = (a.paths word budget.maxDepth).length := List.length_map _
    refine ⟨?_, ?_, ?_⟩
    · intro i found
      rw [none] at found
      cases found
    · intro _ _
      exact ⟨⟨reason, rfl⟩, by rw [List.getLast?_map, last, Option.map_some], size.symm⟩
    · intro _ late
      have := late none
      omega
  | @abandoned before after path split rejected spent =>
    have position : first = if (accepted? a word path).isSome then some before.length
        else (after.findIdx? fun q => (accepted? a word q).isSome).map (· + 1 + before.length) := by
      have found := findIdx?_accepted path after rejected
      rwa [← split] at found
    have size : listed.length = before.length + (after.length + 1) := by simp [listed, split]
    refine ⟨?_, ?_, ?_⟩
    · intro i found early
      have late : before.length ≤ i := by
        rw [position] at found
        split_ifs at found
        · exact (Option.some.inj found).le
        · obtain ⟨j, -, rfl⟩ := Option.map_eq_some_iff.mp found
          omega
      omega
    · intro _ short
      omega
    · intro _ _
      refine ⟨rfl, rfl, path.reverse, ?_, (List.dropLast_reverse ..).symm⟩
      simp [listed, split, ← spent]

/-- What a run does, read off the enumeration of paths: it accepts with the first path that ends
accepted, if the budget lasts until there; it rejects with the last path, if there is none and the
budget lasts; else it is out of budget, on the path it would have extended next. The steps say how
many paths were looked at. -/
theorem run_follows_enumeration (built : a.Built registered) (word : Word) (budget : Budget)
    (clock : Clock) (untimed : budget.timeout = none) :
    let listed := enumeration a registered word budget.maxDepth
    let first := listed.findIdx? (endsAccepted a word)
    let run := a.run word budget clock
    run.trace.word = word ∧
    (∀ steps, steps ∈ listed ↔ (∃ c, Computation a word steps c) ∧
      (steps.map Step.configuration).Nodup ∧ steps.length ≤ max 1 budget.maxDepth) ∧
    (∀ i, first = some i → i + 1 ≤ budget.maxSteps →
      (∃ criterion, run.verdict = .accepted criterion) ∧ listed[i]? = some run.trace.steps ∧
        run.steps = i + 1) ∧
    (first = none → listed.length ≤ budget.maxSteps →
      (∃ reason, run.verdict = .rejected reason) ∧ listed.getLast? = some run.trace.steps ∧
        run.steps = listed.length) ∧
    ((∀ i, first = some i → budget.maxSteps < i + 1) →
      (first = none → budget.maxSteps < listed.length) →
      run.verdict = .rejected .outOfBudget ∧ run.steps = budget.maxSteps + 1 ∧
        ∃ steps, listed[budget.maxSteps]? = some steps ∧ run.trace.steps = steps.dropLast) := by
  have members : ∀ steps, steps ∈ (a.paths word budget.maxDepth).map List.reverse ↔
      (∃ c, Computation a word steps c) ∧ (steps.map Step.configuration).Nodup ∧
        steps.length ≤ max 1 budget.maxDepth := by
    intro steps
    rw [List.mem_map_of_involutive List.reverse_involutive, built.mem_paths, List.reverse_reverse,
      List.map_reverse, List.nodup_reverse, List.length_reverse]
  have ending : Ending a word budget (a.run word budget clock) := run_ending untimed
  rw [built.enumeration_eq]
  exact ⟨ending.trace_word, members, ending.follows⟩

/-- The second path that `Automaton.roundabout` looks at is accepted, if it may look at two. -/
theorem run_follows_enumeration_roundabout :
    let listed := enumeration .roundabout (Definition.roundabout.rules.map Rule.transition) ['a'] 9
    let enough := Automaton.roundabout.run ['a'] ⟨2, 9, none⟩ .still
    let short := Automaton.roundabout.run ['a'] ⟨1, 9, none⟩ .still
    listed.length = 3 ∧ listed.findIdx? (endsAccepted .roundabout ['a']) = some 1 ∧
    listed[1]? = some enough.trace.steps ∧ enough.steps = 2 ∧
    short.verdict = .rejected .outOfBudget ∧
    ∃ steps, listed[1]? = some steps ∧ short.trace.steps = steps.dropLast := by
  have built := Automaton.roundabout_built
  obtain ⟨-, -, accepts, -, -⟩ := run_follows_enumeration built ['a'] ⟨2, 9, none⟩ .still rfl
  obtain ⟨-, -, -, -, stops⟩ := run_follows_enumeration built ['a'] ⟨1, 9, none⟩ .still rfl
  have position : (enumeration .roundabout (Definition.roundabout.rules.map Rule.transition) ['a']
      9).findIdx? (endsAccepted .roundabout ['a']) = some 1 := by decide +kernel
  obtain ⟨-, path, steps⟩ := accepts 1 position (Nat.le_refl 2)
  have late : ∀ i, some 1 = some i → 1 < i + 1 := by
    rintro _ ⟨⟩
    decide
  obtain ⟨verdict, -, opened⟩ := stops (position ▸ late) (position ▸ nofun)
  exact ⟨by decide +kernel, position, path, steps, verdict, opened⟩

end Pushdown
