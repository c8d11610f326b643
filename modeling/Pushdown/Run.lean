import Pushdown.Search

/-!
# Runs

The result of running an automaton on a word: a verdict, the path it was reached on, and what it
cost.
-/

namespace Pushdown

structure Run where
  verdict : Verdict
  /-- The path that was accepted, the last one that could not be extended, or the one that was open
  when the budget ran out. -/
  trace : Trace
  /-- The number of configurations that were to be entered, over all branches. -/
  steps : Nat

/-- The result that the end of a search amounts to. A search that cut a path for its length cannot
tell that no path is accepted. -/
def Run.ofSearch (word : Word) : Search.Outcome × Search.Progress → Run
  | (.accepted path criterion, progress) =>
    { verdict := .accepted criterion, trace := ⟨word, path.reverse⟩, steps := progress.entered }
  | (.abandoned path, progress) =>
    { verdict := .rejected .outOfBudget, trace := ⟨word, path.reverse⟩, steps := progress.entered }
  | (.exhausted, progress) =>
    let (path, reason) := progress.deadEnd.getD ([], .outOfBudget)
    { verdict := .rejected (if progress.wasCut then .outOfBudget else reason)
      trace := ⟨word, path.reverse⟩
      steps := progress.entered }

namespace Run

variable {word : Word} {found : Search.Outcome × Search.Progress}

@[simp] theorem ofSearch_steps : (ofSearch word found).steps = found.2.entered := by
  obtain ⟨outcome, progress⟩ := found
  cases outcome <;> rfl

/-- A run accepts exactly when its search does, and by the same criterion. -/
theorem ofSearch_accepted {criterion : Criterion} :
    (ofSearch word found).verdict = .accepted criterion ↔
      ∃ path, found.1 = .accepted path criterion := by
  obtain ⟨outcome, progress⟩ := found
  cases outcome <;> simp [ofSearch]

end Run

/-- The run of an automaton on a word. No run begins under a timeout whose end, counted from now, is
past what a clock can show; what is said here does not apply to such a timeout. -/
def Automaton.run (a : Automaton) (word : Word) (budget : Budget) (clock : Clock) : Run :=
  .ofSearch word (Search.search a word budget clock)

end Pushdown
