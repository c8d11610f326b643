import Pushdown.Proofs.Verdicts

/-!
# Runs under the three modes

The mode of an automaton has no say in its moves, so its runs open the same paths under every mode.
The runs go through them in lock step until the one that accepts by either criterion does so. Up to
there they only differ in the reason that they give for a dead end, and `under` says how.
-/

namespace Pushdown

open Search

/-! ### What a mode changes -/

/-- How a mode puts what a run that accepts by either criterion says of a dead end. -/
def RejectReason.under : Acceptance → RejectReason → RejectReason
  | .emptyStack, .notFinal => .stackLeft
  | _, reason => reason

def Search.Progress.under (mode : Acceptance) (progress : Progress) : Progress :=
  { progress with deadEnd := progress.deadEnd.map fun (path, reason) => (path, reason.under mode) }

def Run.under (mode : Acceptance) (run : Run) : Run :=
  match run.verdict with
  | .accepted _ => run
  | .rejected reason => { run with verdict := .rejected (reason.under mode) }

variable {mode : Acceptance} {a : Automaton} {word : Word} {budget : Budget} {clock : Clock}

theorem judge_of_either_none {inFinalState stackEmpty : Bool}
    (none : Acceptance.either.judge inFinalState stackEmpty = none) :
    mode.judge inFinalState stackEmpty = .none := by
  cases inFinalState with
  | true => cases none
  | false =>
    cases stackEmpty with
    | true => cases none
    | false => cases mode <;> rfl

theorem judge_of_either_some {inFinalState stackEmpty : Bool} {criterion : Criterion}
    (judged : Acceptance.either.judge inFinalState stackEmpty = some criterion)
    (admitted : mode.Admits criterion) : mode.judge inFinalState stackEmpty = some criterion := by
  obtain ⟨-, met⟩ := judge_eq_some judged
  cases mode with
  | either => exact judged
  | finalState | emptyStack =>
    cases admitted
    exact if_pos met

theorem accepted?_of_either_none {path : Path}
    (none : accepted? (a.withAcceptance .either) word path = none) :
    accepted? (a.withAcceptance mode) word path = .none := by
  cases path with
  | nil => rfl
  | cons step path =>
    by_cases finished : step.configuration.cursor = word.length
    · simp only [accepted?, Automaton.accepts?, if_pos finished] at none ⊢
      exact judge_of_either_none none
    · exact if_neg finished

theorem accepted?_of_either_some {path : Path} {criterion : Criterion}
    (accepted : accepted? (a.withAcceptance .either) word path = some criterion)
    (admitted : mode.Admits criterion) :
    accepted? (a.withAcceptance mode) word path = some criterion := by
  cases path with
  | nil => cases accepted
  | cons step path =>
    by_cases finished : step.configuration.cursor = word.length
    · simp only [accepted?, Automaton.accepts?, if_pos finished] at accepted ⊢
      exact judge_of_either_some accepted admitted
    · simp only [accepted?, Automaton.accepts?, if_neg finished] at accepted
      cases accepted

theorem diagnose_under (c : Configuration) (inputLength : Nat) (hadMoves : Bool) :
    (a.withAcceptance mode).diagnose c inputLength hadMoves =
      ((a.withAcceptance .either).diagnose c inputLength hadMoves).under mode := by
  unfold Automaton.diagnose
  split
  · cases hadMoves <;> cases mode <;> rfl
  · cases mode <;> rfl

/-! ### Lock step -/

/-- The mode has no say in what a path that is not accepted leaves behind, but for the reason. -/
theorem passed_under (limit : Nat) (progress : Progress) (path : Path) :
    passed (a.withAcceptance mode) word limit (progress.under mode) path =
      (passed (a.withAcceptance .either) word limit progress path).under mode := by
  cases path with
  | nil => rfl
  | cons step path =>
    have moves : (a.withAcceptance mode).moves word = (a.withAcceptance .either).moves word := rfl
    unfold passed
    dsimp only
    rw [moves, diagnose_under]
    split
    · rfl
    · split <;> rfl

/-- The sweep by either criterion is the first to end. Unless it accepts by a criterion that a mode
does not have, the sweep under that mode ends the same way. -/
theorem sweep_under (limit : Nat) (paths : List Path) (progress : Progress) :
    let either := sweep (a.withAcceptance .either) word budget clock limit paths progress
    let other := sweep (a.withAcceptance mode) word budget clock limit paths (progress.under mode)
    either.2.entered ≤ other.2.entered ∧
    ((∀ path criterion, either.1 = .accepted path criterion → mode.Admits criterion) →
      other = (either.1, either.2.under mode)) := by
  induction paths generalizing progress with
  | nil => exact ⟨Nat.le_refl _, fun _ => rfl⟩
  | cons path rest ih =>
    have counted : (progress.under mode).entered = progress.entered := rfl
    simp only [sweep, counted]
    cases spent : budget.isSpent clock (progress.entered + 1) with
    | true => exact ⟨Nat.le_refl _, fun _ => rfl⟩
    | false =>
      cases accepts : accepted? (a.withAcceptance .either) word path with
      | none =>
        -- Neither sweep stops here, and what they know of the path differs by `under` only.
        have later := ih (passed (a.withAcceptance .either) word limit
          { progress with entered := progress.entered + 1 } path)
        rw [accepted?_of_either_none accepts]
        rwa [← passed_under] at later
      | some criterion =>
        refine ⟨?_, ?_⟩
        · cases accepted? (a.withAcceptance mode) word path with
          | none =>
            refine Nat.le_trans ?_ (entered_le_sweep _ _ _)
            rw [passed_entered]
            exact Nat.le_refl _
          | some _ => exact Nat.le_refl _
        · intro admitted
          rw [accepted?_of_either_some accepts (admitted path criterion rfl)]
          rfl

theorem search_under (mode : Acceptance) (a : Automaton) (word : Word) (budget : Budget)
    (clock : Clock) :
    let either := search (a.withAcceptance .either) word budget clock
    let other := search (a.withAcceptance mode) word budget clock
    either.2.entered ≤ other.2.entered ∧
    ((∀ path criterion, either.1 = .accepted path criterion → mode.Admits criterion) →
      other = (either.1, either.2.under mode)) := by
  -- The paths are those of the automaton as it was, and at the start nothing is known.
  rw [search_eq_sweep, search_eq_sweep]
  exact sweep_under _ (a.paths word budget.maxDepth) .initial

/-! ### Runs -/

theorem Run.ofSearch_under (outcome : Outcome) (progress : Progress) :
    Run.ofSearch word (outcome, progress.under mode) =
      (Run.ofSearch word (outcome, progress)).under mode := by
  have spent : RejectReason.outOfBudget.under mode = .outOfBudget := by cases mode <;> rfl
  cases outcome with
  | accepted path criterion => rfl
  | abandoned path => simp only [ofSearch, Run.under, spent, Progress.under]
  | exhausted =>
    obtain ⟨entered, deadEnd, wasCut⟩ := progress
    cases deadEnd <;> cases wasCut <;> simp [ofSearch, Run.under, spent, Progress.under]

theorem run_under {mode : Acceptance}
    (admitted : ∀ criterion, ((a.withAcceptance .either).run word budget clock).verdict =
      .accepted criterion → mode.Admits criterion) :
    (a.withAcceptance mode).run word budget clock =
      ((a.withAcceptance .either).run word budget clock).under mode := by
  obtain ⟨-, same⟩ := search_under mode a word budget clock
  have same := same fun path criterion found =>
    admitted criterion (Run.ofSearch_accepted.mpr ⟨path, found⟩)
  rw [Automaton.run, same, Run.ofSearch_under]
  rfl

theorem run_either_le (mode : Acceptance) (a : Automaton) (word : Word) (budget : Budget)
    (clock : Clock) :
    ((a.withAcceptance .either).run word budget clock).steps ≤
      ((a.withAcceptance mode).run word budget clock).steps := by
  rw [Automaton.run, Automaton.run, Run.ofSearch_steps, Run.ofSearch_steps]
  exact (search_under mode a word budget clock).1

/-- The three modes, run by run under one budget. A run by either criterion that accepts is the run
by the criterion that it names; one that does not accept is the run by a final state, and it is the
run by an empty stack but for what that says of a run that has used up the word. So a run by either
criterion accepts if one by a single criterion does, and not later. -/
theorem runs_under_modes (a : Automaton) (word : Word) (budget : Budget) (clock : Clock) :
    let run mode := (a.withAcceptance mode).run word budget clock
    ((run .either).verdict = .accepted .finalState → run .finalState = run .either) ∧
    ((run .either).verdict = .accepted .emptyStack → run .emptyStack = run .either) ∧
    (∀ reason, (run .either).verdict = .rejected reason →
      run .finalState = run .either ∧
      run .emptyStack = { run .either with
        verdict := .rejected (if reason = .notFinal then .stackLeft else reason) }) ∧
    ∀ mode criterion, (run mode).verdict = .accepted criterion →
      (∃ other, (run .either).verdict = .accepted other) ∧
      (run .either).steps ≤ (run mode).steps := by
  intro run
  have accepts (mode : Acceptance) {criterion : Criterion} (admitted : mode.Admits criterion)
      (accepted : (run .either).verdict = .accepted criterion) : run mode = run .either := by
    have same : run mode = (run .either).under mode := by
      apply run_under
      intro other accepted'
      obtain rfl := Verdict.accepted.inj (accepted.symm.trans accepted')
      exact admitted
    rwa [Run.under, accepted] at same
  have rejects (mode : Acceptance) {reason : RejectReason}
      (rejected : (run .either).verdict = .rejected reason) :
      run mode = { run .either with verdict := .rejected (reason.under mode) } := by
    have same : run mode = (run .either).under mode := by
      apply run_under
      intro criterion accepted
      cases rejected.symm.trans accepted
    rwa [Run.under, rejected] at same
  refine ⟨accepts .finalState rfl, accepts .emptyStack rfl, ?_, ?_⟩
  · intro reason rejected
    refine ⟨(rejects .finalState rejected).trans ?_, (rejects .emptyStack rejected).trans ?_⟩
    · have kept : reason.under .finalState = reason := by cases reason <;> rfl
      rw [kept, ← rejected]
    · cases reason <;> rfl
  · intro mode criterion accepted
    refine ⟨?_, run_either_le mode a word budget clock⟩
    cases verdict : (run .either).verdict with
    | accepted other => exact ⟨other, rfl⟩
    | rejected reason =>
      rw [rejects mode verdict] at accepted
      cases accepted

/-- On the empty word `Automaton.roundabout` starts with an empty stack, outside its final state; on
`aa` it is rejected under every mode. -/
theorem runs_under_modes_roundabout :
    let run mode word := (Automaton.roundabout.withAcceptance mode).run word .standard .still
    (run .either []).verdict = .accepted .emptyStack ∧ run .emptyStack [] = run .either [] ∧
    (run .finalState []).verdict = .rejected .notFinal ∧
    run .finalState ['a', 'a'] = run .either ['a', 'a'] := by
  obtain ⟨-, empty, -⟩ := runs_under_modes .roundabout [] .standard .still
  obtain ⟨-, -, rejected, -⟩ := runs_under_modes .roundabout ['a', 'a'] .standard .still
  have accepts : ((Automaton.roundabout.withAcceptance .either).run [] .standard .still).verdict =
      .accepted .emptyStack := by decide +kernel
  exact ⟨accepts, empty accepts, by decide +kernel, (rejected (.circling 0) (by decide +kernel)).1⟩

end Pushdown
