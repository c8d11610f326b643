import Pushdown.Proofs.Deepening

/-!
# Larger budgets

A search that was not given up needs no more steps than it has counted, and where it cut no path it
has no use for longer ones. So a run that rejects for another reason than its budget stays as it is
under a larger one. A run that accepts may come upon another path first where paths may be longer,
or not come to its end, but it does not turn to rejecting.
-/

namespace Pushdown

namespace Search

variable {a : Automaton} {word : Word} {budget budget' : Budget} {clock clock' : Clock}

/-- What is learnt from a path that was not cut does not depend on how long paths may be. -/
theorem passed_of_le {limit limit' : Nat} (le : limit ≤ limit') {path : Path}
    (uncut : ¬ Cut a word limit [path]) (progress : Progress) :
    passed a word limit' progress path = passed a word limit progress path := by
  cases path with
  | nil => rfl
  | cons step path =>
    unfold passed
    dsimp only
    by_cases stuck : fresh (a.moves word) step path = []
    · rw [if_pos stuck, if_pos stuck]
    · have short : ¬ limit ≤ path.length + 1 := by
        intro long
        exact uncut ⟨step, path, List.mem_singleton_self _, stuck, long⟩
      have short' : ¬ limit' ≤ path.length + 1 := by omega
      rw [if_neg stuck, if_neg stuck, if_neg short, if_neg short']

theorem sweep_of_le {limit limit' : Nat} (le : limit ≤ limit') {paths : List Path}
    (uncut : ¬ Cut a word limit paths) (progress : Progress) :
    sweep a word budget clock limit' paths progress =
      sweep a word budget clock limit paths progress := by
  induction paths generalizing progress with
  | nil => rfl
  | cons path rest ih =>
    obtain ⟨here, later⟩ := not_or.mp (mt cut_cons.mpr uncut)
    unfold sweep
    dsimp only
    rw [passed_of_le le here, ih later]

/-- A sweep that comes to its end does so with every budget that allows the steps it counts. -/
theorem sweep_of_steps (untimed : budget.timeout = none) (untimed' : budget'.timeout = none)
    {limit : Nat} {paths : List Path} {progress : Progress}
    (finished : ∀ path, (sweep a word budget clock limit paths progress).1 ≠ .abandoned path)
    (enough : (sweep a word budget clock limit paths progress).2.entered ≤ budget'.maxSteps) :
    sweep a word budget' clock' limit paths progress =
      sweep a word budget clock limit paths progress := by
  induction paths generalizing progress with
  | nil => rfl
  | cons path rest ih =>
    simp only [sweep, isSpent_untimed untimed, isSpent_untimed untimed', decide_eq_true_eq]
      at finished enough ⊢
    by_cases spent : budget.maxSteps < progress.entered + 1
    · rw [if_pos spent] at finished
      exact absurd rfl (finished _)
    · rw [if_neg spent] at finished enough ⊢
      cases accepts : accepted? a word path with
      | some criterion =>
        simp only [accepts] at enough
        rw [if_neg (by omega)]
      | none =>
        simp only [accepts] at finished enough
        have counted := (entered_le_sweep limit rest _).trans enough
        rw [passed_entered] at counted
        dsimp only at counted
        rw [if_neg (by omega)]
        exact ih finished enough

end Search

open Search

variable {a : Automaton} {word : Word} {registered : List Transition} {budget budget' : Budget}
  {clock clock' : Clock}

theorem Automaton.AcceptsWithin.mono {length length' : Nat} (within : a.AcceptsWithin word length)
    (le : length ≤ length') : a.AcceptsWithin word length' := by
  obtain ⟨steps, c, criterion, computed, short, accepting⟩ := within
  exact ⟨steps, c, criterion, computed, short.trans le, accepting⟩

/-- A run that its limit on steps has not stopped needs no more steps than it has counted, and no
longer paths if it has cut none. -/
theorem run_of_budget (untimed : budget.timeout = none) (untimed' : budget'.timeout = none)
    (depth : budget'.maxDepth = budget.maxDepth ∨ budget.maxDepth ≤ budget'.maxDepth ∧
      ¬ Cut a word (budget.maxDepth - 1 + 1) (a.paths word budget.maxDepth))
    (finished : (a.run word budget clock).steps ≤ budget.maxSteps)
    (enough : (a.run word budget clock).steps ≤ budget'.maxSteps) :
    a.run word budget' clock' = a.run word budget clock := by
  have unstopped : ¬ Abandons a word budget clock := by
    rw [abandons_iff untimed]
    omega
  have longer : search a word budget clock =
      sweep a word budget clock (budget'.maxDepth - 1 + 1) (a.paths word budget'.maxDepth)
        .initial := by
    rcases depth with same | ⟨deeper, uncut⟩
    · rw [same, search_eq_sweep]
    · have le : budget.maxDepth - 1 + 1 ≤ budget'.maxDepth - 1 + 1 := by omega
      rw [search_eq_sweep, Automaton.paths_of_le deeper uncut, sweep_of_le le uncut]
  have ends : ∀ path, (search a word budget clock).1 ≠ .abandoned path := not_exists.mp unstopped
  rw [Automaton.run, Run.ofSearch_steps, longer] at enough
  rw [longer] at ends
  rw [Automaton.run, Automaton.run, search_eq_sweep, longer,
    sweep_of_steps untimed untimed' ends enough]

theorem Ending.uncut {run : Run} (ending : Ending a word budget run) {reason : RejectReason}
    (rejected : run.verdict = .rejected reason) (conclusive : reason ≠ .outOfBudget) :
    ¬ Cut a word (budget.maxDepth - 1 + 1) (a.paths word budget.maxDepth) ∧
      run.steps ≤ budget.maxSteps := by
  cases ending with
  | accepted => cases rejected
  | exhausted _ cheap _ why =>
    obtain rfl := Verdict.rejected.inj rejected
    exact ⟨fun cut => why.elim (fun spent => conclusive spent.2) fun uncut => uncut.1 cut, cheap⟩
  | abandoned =>
    obtain rfl := Verdict.rejected.inj rejected
    exact absurd rfl conclusive

/-- What a run has settled, a larger budget does not overturn. One that rejects for another reason
than its budget is the same run wherever paths may be as long and it may take its steps. One that
accepts is so where paths may be just as long; where they may be longer, the other run accepts too,
unless its limit on steps stops it. -/
theorem run_under_larger_budget (built : a.Built registered) (word : Word)
    (budget budget' : Budget) (clock clock' : Clock) (untimed : budget.timeout = none)
    (untimed' : budget'.timeout = none) (deeper : budget.maxDepth ≤ budget'.maxDepth) :
    let run := a.run word budget clock
    let run' := a.run word budget' clock'
    (∀ reason, run.verdict = .rejected reason → reason ≠ .outOfBudget →
      run.steps ≤ budget'.maxSteps → run' = run) ∧
    ∀ criterion, run.verdict = .accepted criterion →
      ((∃ criterion', run'.verdict = .accepted criterion') ∨
        run'.steps = budget'.maxSteps + 1) ∧
      (budget'.maxDepth = budget.maxDepth → run.steps ≤ budget'.maxSteps → run' = run) := by
  intro run run'
  have ending : Ending a word budget run := run_ending untimed
  have ending' : Ending a word budget' run' := run_ending untimed'
  refine ⟨?_, ?_⟩
  · intro reason rejected conclusive enough
    obtain ⟨uncut, finished⟩ := ending.uncut rejected conclusive
    exact run_of_budget untimed untimed' (Or.inr ⟨deeper, uncut⟩) finished enough
  · intro criterion accepted
    have finished := ending.steps_of_accepted accepted
    refine ⟨?_, fun same enough => run_of_budget untimed untimed' (Or.inl same) finished enough⟩
    rcases run_steps a word clock' untimed' with ⟨-, stopped⟩ | ⟨-, finished'⟩
    · exact Or.inr stopped
    · have within := (ending.accepted_iff built finished).mp ⟨criterion, accepted⟩
      have depth : max 1 budget.maxDepth ≤ max 1 budget'.maxDepth := by omega
      exact Or.inl ((ending'.accepted_iff built finished').mpr (within.mono depth))

/-! ### A definition that accepts in two ways -/

/-- Having read `a`, it is in its final state after one more move, which it tries first, or it has
emptied its stack. -/
def Definition.twofold : Definition where
  name := "Twofold"
  states := ["p", "q", "f"]
  inputAlphabet := ['a']
  stackAlphabet := ['X']
  initialState := "p"
  finalStates := ["f"]
  acceptance := .either
  bottom := some 'X'
  rules := [⟨"p", some 'a', some 'X', "q", ['X']⟩, ⟨"p", some 'a', some 'X', "p", []⟩,
    ⟨"q", none, none, "f", []⟩]

def Automaton.twofold : Automaton where
  name := "Twofold"
  states := ["p", "q", "f"]
  inputAlphabet := ['a']
  initialState := "p"
  finalStates := ["f"]
  acceptance := .either
  bottom := some 'X'
  table := ⟨[(⟨"p", some 'a', some 'X'⟩, [⟨"q", ['X']⟩, ⟨"p", []⟩]),
    (⟨"q", none, none⟩, [⟨"f", []⟩])]⟩

theorem Automaton.twofold_built :
    twofold.Built (Definition.twofold.rules.map Rule.transition) := ofDefinition_built rfl

/-- `Automaton.twofold` accepts `a` by its empty stack where paths may have two configurations, and
by its final state where they may have three, unless it may take two steps only. What it says of
`aa` at first, it says for good. -/
theorem run_under_larger_budget_twofold :
    let run word steps depth := Automaton.twofold.run word ⟨steps, depth, none⟩ .still
    (run ['a'] 3 2).verdict = .accepted .emptyStack ∧
    (run ['a'] 3 3).verdict = .accepted .finalState ∧
    (run ['a'] 2 3).steps = 3 ∧
    run ['a'] 9 2 = run ['a'] 3 2 ∧
    (run ['a', 'a'] 4 3).verdict = .rejected (.stuck 1) ∧
    run ['a', 'a'] 9 9 = run ['a', 'a'] 4 3 := by
  intro run
  have built := Automaton.twofold_built
  have shallow : (run ['a'] 3 2).verdict = .accepted .emptyStack := by decide +kernel
  have stuck : (run ['a', 'a'] 4 3).verdict = .rejected (.stuck 1) := by decide +kernel
  obtain ⟨-, deeper⟩ := run_under_larger_budget built ['a'] ⟨3, 2, none⟩ ⟨2, 3, none⟩ .still .still
    rfl rfl (by decide)
  obtain ⟨-, same⟩ := run_under_larger_budget built ['a'] ⟨3, 2, none⟩ ⟨9, 2, none⟩ .still .still
    rfl rfl (by decide)
  obtain ⟨settled, -⟩ := run_under_larger_budget built ['a', 'a'] ⟨4, 3, none⟩ ⟨9, 9, none⟩ .still
    .still rfl rfl (by decide)
  have stopped : (run ['a'] 2 3).steps = 3 := by
    refine (deeper _ shallow).1.resolve_left ?_
    have rejected : (run ['a'] 2 3).verdict = .rejected .outOfBudget := by decide +kernel
    rintro ⟨criterion, accepted⟩
    cases rejected.symm.trans accepted
  exact ⟨shallow, by decide +kernel, stopped, (same _ shallow).2 rfl (by decide +kernel), stuck,
    settled _ stuck nofun (by decide +kernel)⟩

end Pushdown
