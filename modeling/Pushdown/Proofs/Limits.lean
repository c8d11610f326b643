import Pushdown.Proofs.Verdicts

/-!
# The limits of a run

The limit on steps either stops a search, which then has counted one step too many, or has no say in
how the run ends. A run that it does not stop accepts exactly when some computation that fits into
the limit on the length of a path is accepted, and is out of budget exactly when there is none, but
a path without detours goes one configuration beyond that limit.
-/

namespace Pushdown

open Search

variable {a : Automaton} {word : Word} {registered : List Transition} {budget : Budget}
  {clock : Clock}

/-- Some computation through at most `length` configurations is accepted; it may come back to where
it was. -/
def Automaton.AcceptsWithin (a : Automaton) (word : Word) (length : Nat) : Prop :=
  ∃ steps c criterion, Computation a word steps c ∧ steps.length ≤ length ∧
    Accepting a word c criterion

/-- Some computation goes through exactly `length` configurations and meets none of them twice. -/
def Automaton.HasSimplePath (a : Automaton) (word : Word) (length : Nat) : Prop :=
  ∃ steps c, Computation a word steps c ∧ (steps.map Step.configuration).Nodup ∧
    steps.length = length

/-! ### The limit on steps -/

namespace Search

variable (a word budget clock) in
/-- The search is given up in front of a configuration that the budget does not allow. -/
def Abandons : Prop := ∃ path, (search a word budget clock).1 = .abandoned path

/-- Without a limit in time, a sweep is given up exactly when it has counted a step too many. -/
theorem sweep_entered (untimed : budget.timeout = none) {limit : Nat} {paths : List Path}
    {progress : Progress} (inBudget : progress.entered ≤ budget.maxSteps) :
    let swept := sweep a word budget clock limit paths progress
    (∃ path, swept.1 = .abandoned path) ∧ swept.2.entered = budget.maxSteps + 1 ∨
      (∀ path, swept.1 ≠ .abandoned path) ∧ swept.2.entered ≤ budget.maxSteps := by
  induction paths generalizing progress with
  | nil => exact Or.inr ⟨fun _ => Outcome.noConfusion, inBudget⟩
  | cons path rest ih =>
    simp only [sweep, isSpent_untimed untimed, decide_eq_true_eq]
    by_cases spent : budget.maxSteps < progress.entered + 1
    · rw [if_pos spent]
      exact Or.inl ⟨⟨path.tail, rfl⟩, Nat.le_antisymm (Nat.succ_le_succ inBudget) spent⟩
    · rw [if_neg spent]
      have stillInBudget : progress.entered + 1 ≤ budget.maxSteps := Nat.le_of_not_lt spent
      cases accepted? a word path with
      | some criterion => exact Or.inr ⟨fun _ => Outcome.noConfusion, stillInBudget⟩
      | none => exact ih (by rw [passed_entered]; exact stillInBudget)

end Search

variable (a word clock) in
theorem run_steps (untimed : budget.timeout = none) :
    Abandons a word budget clock ∧ (a.run word budget clock).steps = budget.maxSteps + 1 ∨
      ¬ Abandons a word budget clock ∧ (a.run word budget clock).steps ≤ budget.maxSteps := by
  rw [Automaton.run, Run.ofSearch_steps, Abandons, search_eq_sweep]
  have nothing : Progress.initial.entered ≤ budget.maxSteps := Nat.zero_le _
  rcases sweep_entered untimed nothing with stopped | ⟨finished, cheap⟩
  · exact Or.inl stopped
  · exact Or.inr ⟨not_exists.mpr finished, cheap⟩

theorem abandons_iff (untimed : budget.timeout = none) :
    Abandons a word budget clock ↔ (a.run word budget clock).steps = budget.maxSteps + 1 := by
  rcases run_steps a word clock untimed with ⟨stopped, steps⟩ | ⟨finished, cheap⟩
  · exact iff_of_true stopped steps
  · exact iff_of_false finished (by omega)

/-! ### The limit on the length of a path -/

theorem diagnose_ne_outOfBudget (a : Automaton) (c : Configuration) (inputLength : Nat)
    (hadMoves : Bool) : a.diagnose c inputLength hadMoves ≠ .outOfBudget := by
  unfold Automaton.diagnose
  split
  · split <;> nofun
  · split <;> nofun

namespace Automaton.Built

/-- A path is cut exactly when one without detours goes one configuration beyond the limit. -/
theorem cut_iff (built : a.Built registered) {maxDepth : Nat} :
    Cut a word (maxDepth - 1 + 1) (a.paths word maxDepth) ↔
      a.HasSimplePath word (max 1 maxDepth + 1) := by
  constructor
  · rintro ⟨step, path, member, grows, long⟩
    obtain ⟨⟨c, computed⟩, distinct, short⟩ := built.mem_paths.mp member
    obtain ⟨next, among⟩ := List.exists_mem_of_ne_nil _ grows
    obtain ⟨moves, new⟩ := built.mem_fresh.mp among
    obtain rfl := computed.configuration_eq
    have longer := Computation.reverse_cons_cons_iff.mpr ⟨rfl, computed, moves⟩
    refine ⟨_, _, longer, ?_, ?_⟩
    · rw [List.map_reverse, List.nodup_reverse]
      exact List.nodup_cons.mpr ⟨new, distinct⟩
    · simp only [List.length_reverse, List.length_cons] at short ⊢
      omega
  · rintro ⟨steps, c, computed, distinct, length⟩
    rw [← List.reverse_reverse steps] at computed
    rw [← List.nodup_reverse, ← List.map_reverse] at distinct
    rw [← List.length_reverse] at length
    rcases built.mem_paths_or_cut maxDepth computed distinct with member | ⟨-, cut⟩
    · obtain ⟨-, -, short⟩ := built.mem_paths.mp member
      omega
    · exact cut

/-- Taking out the detours of a computation does not make it longer, so what can be accepted within
the limit is accepted on one of the paths that may be opened. -/
theorem acceptsWithin_iff (built : a.Built registered) {maxDepth : Nat} :
    a.AcceptsWithin word (max 1 maxDepth) ↔
      ∃ path ∈ a.paths word maxDepth, accepted? a word path ≠ none := by
  constructor
  · rintro ⟨steps, c, criterion, computed, short, accepting⟩
    obtain ⟨simple, computed, distinct, shorter⟩ := computed.exists_simple
    rw [← List.reverse_reverse simple] at computed
    rw [← List.nodup_reverse, ← List.map_reverse] at distinct
    rw [← List.length_reverse] at shorter
    have member := built.mem_paths.mpr ⟨⟨c, computed⟩, distinct, shorter.trans short⟩
    exact ⟨_, member, accepted?_ne_none computed accepting⟩
  · rintro ⟨path, member, accepted⟩
    obtain ⟨⟨c, computed⟩, -, short⟩ := built.mem_paths.mp member
    obtain ⟨criterion, accepted⟩ := Option.ne_none_iff_exists'.mp accepted
    rw [← List.length_reverse] at short
    exact ⟨_, c, criterion, computed, short, accepted?_eq_some computed accepted⟩

end Automaton.Built

/-- What a verdict says about the limits of a run. The limit on steps has stopped the run exactly
when it counts one step more than that; any other run accepts exactly when some computation that is
not longer than a path may be is accepted, and is out of budget exactly when there is none, though
a path without detours is longer. -/
theorem run_verdict_within_limits (built : a.Built registered) (word : Word) (budget : Budget)
    (clock : Clock) (untimed : budget.timeout = none) :
    let run := a.run word budget clock
    let depth := max 1 budget.maxDepth
    (Abandons a word budget clock ↔ run.steps = budget.maxSteps + 1) ∧
    (¬ Abandons a word budget clock →
      run.steps ≤ budget.maxSteps ∧
      ((∃ criterion, run.verdict = .accepted criterion) ↔ a.AcceptsWithin word depth) ∧
      (run.verdict = .rejected .outOfBudget ↔
        ¬ a.AcceptsWithin word depth ∧ a.HasSimplePath word (depth + 1)) ∧
      (¬ a.AcceptsWithin word depth → ¬ a.HasSimplePath word (depth + 1) →
        ∃ reason, run.verdict = .rejected reason ∧ reason ≠ .outOfBudget)) := by
  refine ⟨abandons_iff untimed, ?_⟩
  intro finished
  rw [abandons_iff untimed] at finished
  rw [built.acceptsWithin_iff, ← built.cut_iff]
  have ending : Ending a word budget (a.run word budget clock) := run_ending untimed
  generalize a.run word budget clock = run at ending finished ⊢
  cases ending with
  | @accepted before after path criterion split rejected accepted cheap =>
    have found : ∃ path ∈ a.paths word budget.maxDepth, accepted? a word path ≠ none :=
      ⟨path, by simp [split], by simp [accepted]⟩
    refine ⟨cheap, iff_of_true ⟨criterion, rfl⟩ found, ?_, ?_⟩
    · exact iff_of_false nofun fun ⟨absent, _⟩ => absent found
    · exact fun absent => absurd found absent
  | @exhausted step path reason rejected cheap last why =>
    have absent : ¬ ∃ path ∈ a.paths word budget.maxDepth, accepted? a word path ≠ none :=
      fun ⟨path, member, accepted⟩ => accepted (rejected path member)
    refine ⟨cheap, iff_of_false nofun absent, ?_⟩
    rcases why with ⟨cut, rfl⟩ | ⟨uncut, rfl⟩
    · exact ⟨iff_of_true rfl ⟨absent, cut⟩, fun _ uncut => absurd cut uncut⟩
    · have conclusive : reasonAt a word step ≠ .outOfBudget := diagnose_ne_outOfBudget _ _ _ _
      refine ⟨iff_of_false ?_ fun ⟨_, cut⟩ => uncut cut, fun _ _ => ⟨_, rfl, conclusive⟩⟩
      intro spent
      exact conclusive (Verdict.rejected.inj spent)
  | abandoned => exact absurd rfl finished

/-- `Automaton.roundabout` needs two configurations to accept `a`, so it runs out of budget where
paths may have one only; on `aa` no path without detours has three. -/
theorem run_verdict_within_limits_roundabout :
    ¬ Automaton.roundabout.AcceptsWithin ['a'] 1 ∧ Automaton.roundabout.HasSimplePath ['a'] 2 ∧
    Abandons .roundabout ['a'] ⟨1, 2, none⟩ .still ∧
    ¬ Automaton.roundabout.AcceptsWithin ['a', 'a'] 2 ∧
    ¬ Automaton.roundabout.HasSimplePath ['a', 'a'] 3 := by
  have built := Automaton.roundabout_built
  obtain ⟨shallow, within⟩ := run_verdict_within_limits built ['a'] ⟨1, 0, none⟩ .still rfl
  obtain ⟨short, -⟩ := run_verdict_within_limits built ['a'] ⟨1, 2, none⟩ .still rfl
  obtain ⟨whole, within'⟩ := run_verdict_within_limits built ['a', 'a'] ⟨3, 2, none⟩ .still rfl
  obtain ⟨-, -, cut, -⟩ := within (shallow.not.mpr (by decide +kernel))
  obtain ⟨-, accepts, uncut, -⟩ := within' (whole.not.mpr (by decide +kernel))
  have circles : (Automaton.roundabout.run ['a', 'a'] ⟨3, 2, none⟩ .still).verdict =
      .rejected (.circling 0) := by decide +kernel
  rw [circles] at accepts uncut
  have never : ¬ Automaton.roundabout.AcceptsWithin ['a', 'a'] 2 := accepts.not.mp nofun
  obtain ⟨notInOne, two⟩ := cut.mp (by decide +kernel)
  exact ⟨notInOne, two, short.mpr (by decide +kernel), never,
    fun three => nomatch uncut.mpr ⟨never, three⟩⟩

end Pushdown
