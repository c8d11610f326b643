import Pushdown.Proofs.Limits

/-!
# Longer paths

Where no path was cut for its length, allowing longer ones opens no others. What a run says that its
limit on steps has not stopped depends on computations alone; and a run that neither limit has
stopped is conclusive.
-/

namespace Pushdown

namespace Search

variable {moves : Configuration → List Step} {step : Step} {path : Path}

theorem preorder_succ {room : Nat} (uncut : ∀ last q, last :: q ∈ preorder moves room step path →
      room + path.length ≤ q.length → fresh moves last q = []) :
    preorder moves (room + 1) step path = preorder moves room step path := by
  induction room generalizing step path with
  | zero =>
    have stuck := uncut step path mem_preorder_self (by omega)
    simp [preorder, stuck]
  | succ room ih =>
    have below : ∀ next ∈ fresh moves step path, preorder moves (room + 1) next (step :: path) =
        preorder moves room next (step :: path) := by
      intro next among
      apply ih
      intro last q member long
      apply uncut last q (mem_preorder_succ.mpr (Or.inr ⟨next, among, member⟩))
      rw [List.length_cons] at long
      omega
    rw [preorder, preorder, List.flatMap_congr below]

/-- If no path is cut that has all the room there is, more room makes no difference. -/
theorem preorder_of_le {room room' : Nat} (le : room ≤ room')
    (uncut : ∀ last q, last :: q ∈ preorder moves room step path →
      room + path.length ≤ q.length → fresh moves last q = []) :
    preorder moves room' step path = preorder moves room step path := by
  induction room', le using Nat.le_induction with
  | base => rfl
  | succ room' le ih =>
    rw [preorder_succ, ih]
    intro last q member long
    rw [ih] at member
    exact uncut last q member (by omega)

variable {a : Automaton} {word : Word} {registered : List Transition} {budget : Budget}
  {clock : Clock}

theorem sweep_wasCut {limit : Nat} {paths : List Path} {progress : Progress}
    (wasCut : (sweep a word budget clock limit paths progress).2.wasCut = true) :
    progress.wasCut = true ∨ Cut a word limit paths := by
  induction paths generalizing progress with
  | nil => exact Or.inl wasCut
  | cons path rest ih =>
    unfold sweep at wasCut
    dsimp only at wasCut
    split at wasCut
    · exact Or.inl wasCut
    · split at wasCut
      · exact Or.inl wasCut
      · rcases ih wasCut with before | later
        · rcases passed_wasCut.mp before with known | cut
          · exact Or.inl known
          · exact Or.inr (cut_cons.mpr (Or.inl cut))
        · exact Or.inr (cut_cons.mpr (Or.inr later))

end Search

open Search

variable {a : Automaton} {word : Word} {registered : List Transition} {budget : Budget}

theorem Automaton.paths_of_le {maxDepth maxDepth' : Nat} (le : maxDepth ≤ maxDepth')
    (uncut : ¬ Cut a word (maxDepth - 1 + 1) (a.paths word maxDepth)) :
    a.paths word maxDepth' = a.paths word maxDepth := by
  apply preorder_of_le (Nat.sub_le_sub_right le 1)
  intro last q member long
  by_contra grows
  exact uncut ⟨last, q, member, grows, Nat.succ_le_succ long⟩

theorem Ending.steps_le {run : Run} (ending : Ending a word budget run)
    (enough : (a.paths word budget.maxDepth).length ≤ budget.maxSteps) :
    run.steps ≤ budget.maxSteps := by
  cases ending with
  | accepted split rejected accepted cheap => exact cheap
  | exhausted rejected cheap => exact cheap
  | @abandoned before after path split rejected spent =>
    rw [split, List.length_append, List.length_cons] at enough
    omega

theorem steps_le_of_not_abandons {clock : Clock} (untimed : budget.timeout = none)
    (unstopped : ¬ Abandons a word budget clock) :
    (a.run word budget clock).steps ≤ budget.maxSteps := by
  rcases run_steps a word clock untimed with ⟨stopped, -⟩ | ⟨-, finished⟩
  · exact absurd stopped unstopped
  · exact finished

theorem Ending.steps_of_accepted {run : Run} (ending : Ending a word budget run)
    {criterion : Criterion} (accepted : run.verdict = .accepted criterion) :
    run.steps ≤ budget.maxSteps := by
  cases ending with
  | accepted split rejected accepted cheap => exact cheap
  | exhausted | abandoned => cases accepted

theorem Ending.steps_of_rejected {run : Run} (ending : Ending a word budget run)
    {reason : RejectReason} (rejected : run.verdict = .rejected reason)
    (finished : run.steps ≤ budget.maxSteps) :
    run.steps = (a.paths word budget.maxDepth).length := by
  cases ending with
  | accepted => cases rejected
  | exhausted => rfl
  | abandoned => exact absurd finished (Nat.not_succ_le_self _)

theorem Ending.accepted_iff (built : a.Built registered) {run : Run}
    (ending : Ending a word budget run) (finished : run.steps ≤ budget.maxSteps) :
    (∃ criterion, run.verdict = .accepted criterion) ↔
      a.AcceptsWithin word (max 1 budget.maxDepth) := by
  rw [built.acceptsWithin_iff]
  cases ending with
  | @accepted before after path criterion split rejected accepted cheap =>
    exact iff_of_true ⟨criterion, rfl⟩ ⟨path, by simp [split], by simp [accepted]⟩
  | exhausted rejected cheap last why =>
    refine iff_of_false nofun ?_
    rintro ⟨path, member, accepted⟩
    exact accepted (rejected path member)
  | abandoned => exact absurd finished (Nat.not_succ_le_self _)

theorem Ending.outOfBudget_iff (built : a.Built registered) {run : Run}
    (ending : Ending a word budget run) (finished : run.steps ≤ budget.maxSteps) :
    run.verdict = .rejected .outOfBudget ↔ ¬ a.AcceptsWithin word (max 1 budget.maxDepth) ∧
      a.HasSimplePath word (max 1 budget.maxDepth + 1) := by
  rw [← ending.accepted_iff built finished, ← built.cut_iff]
  cases ending with
  | @accepted before after path criterion split rejected accepted cheap =>
    exact iff_of_false nofun fun unaccepted => unaccepted.1 ⟨criterion, rfl⟩
  | @exhausted step path reason rejected cheap last why =>
    have unaccepted : ¬ ∃ criterion, Verdict.rejected reason = .accepted criterion := nofun
    rcases why with ⟨cut, rfl⟩ | ⟨uncut, rfl⟩
    · exact iff_of_true rfl ⟨unaccepted, cut⟩
    · refine iff_of_false ?_ fun ⟨_, cut⟩ => uncut cut
      intro spent
      exact diagnose_ne_outOfBudget _ _ _ _ (Verdict.rejected.inj spent)
  | abandoned => exact absurd finished (Nat.not_succ_le_self _)

/-- A run that its limit on steps has not stopped and that cut no path decides the language. -/
theorem Ending.conclusive (built : a.Built registered) {run : Run}
    (ending : Ending a word budget run)
    (uncut : ¬ Cut a word (budget.maxDepth - 1 + 1) (a.paths word budget.maxDepth))
    (finished : run.steps ≤ budget.maxSteps) :
    run.verdict ≠ .rejected .outOfBudget ∧
      ((∃ criterion, run.verdict = .accepted criterion) ↔ word ∈ a.language) := by
  cases ending with
  | @accepted before after path criterion split rejected accepted cheap =>
    have member : path ∈ a.paths word budget.maxDepth := by rw [split]; simp
    obtain ⟨⟨c, h⟩, -⟩ := built.computation_of_mem_paths member
    exact ⟨nofun, iff_of_true ⟨criterion, rfl⟩ ⟨_, c, criterion, h, accepted?_eq_some h accepted⟩⟩
  | @exhausted step path reason rejected cheap last why =>
    obtain ⟨-, rfl⟩ := why.resolve_left fun cut => uncut cut.1
    refine ⟨?_, iff_of_false nofun (built.not_mem_language rejected uncut)⟩
    intro spent
    exact diagnose_ne_outOfBudget _ _ _ _ (Verdict.rejected.inj spent)
  | abandoned => exact absurd finished (Nat.not_succ_le_self _)

end Pushdown
