import Pushdown.Proofs.Computations
import Pushdown.Run

/-!
# The search as an enumeration

`preorder` lists the paths that a search without limits on its steps would open, depth first.
`sweep` walks down such a list: it charges each path, stops at the first that is accepted or that
the budget does not allow, and remembers dead ends. `visit_eq_sweep` shows that the recursive search
is the sweep of the preorder, so that what a run does can be read off a list.
-/

namespace Pushdown.Search

/-- The moves from the end of a path to configurations that are not on it. -/
def fresh (moves : Configuration → List Step) (step : Step) (path : Path) : List Step :=
  (moves step.configuration).filter (!onPath (step :: path) ·.configuration)

/-- The paths that go on from an open path with at most `room` more configurations and meet none
twice. A path comes before those that go on from it, and these in the order of their moves. -/
def preorder (moves : Configuration → List Step) : (room : Nat) → Step → Path → List Path
  | 0, step, path => [step :: path]
  | room + 1, step, path =>
    (step :: path) :: (fresh moves step path).flatMap (preorder moves room · (step :: path))

variable (a : Automaton) (word : Word) (budget : Budget) (clock : Clock)

def accepted? : Path → Option Criterion
  | [] => none
  | step :: _ => a.accepts? word step.configuration

/-- What is known after a path that was entered and not accepted. Where paths may not be longer than
`limit`, it is a dead end if it may not grow or has no move to grow by. -/
def passed (limit : Nat) (progress : Progress) : Path → Progress
  | [] => progress
  | step :: path =>
    let reason := a.diagnose step.configuration word.length
      (!(a.moves word step.configuration).isEmpty)
    if fresh (a.moves word) step path = [] then
      { progress with deadEnd := some (step :: path, reason) }
    else if limit ≤ path.length + 1 then
      { progress with deadEnd := some (step :: path, reason), wasCut := true }
    else progress

/-- Enters paths in turn until one is accepted or may not be entered. -/
def sweep (limit : Nat) : List Path → Progress → Outcome × Progress
  | [], progress => (.exhausted, progress)
  | path :: rest, progress =>
    let progress := { progress with entered := progress.entered + 1 }
    if budget.isSpent clock progress.entered then (.abandoned path.tail, progress)
    else
      match accepted? a word path with
      | some criterion => (.accepted path criterion, progress)
      | none => sweep limit rest (passed a word limit progress path)

variable {a word budget clock}

theorem sweep_append (limit : Nat) (xs ys : List Path) (progress : Progress) :
    sweep a word budget clock limit (xs ++ ys) progress =
      match sweep a word budget clock limit xs progress with
      | (.exhausted, progress) => sweep a word budget clock limit ys progress
      | found => found := by
  induction xs generalizing progress with
  | nil => rfl
  | cons path rest ih =>
    simp only [List.cons_append, sweep]
    split
    · rfl
    · split
      · rfl
      · exact ih _

/-- Visiting steps in turn sweeps through what each of them opens. -/
theorem firstOutcome_eq_sweep {limit : Nat} {visit : Step → Progress → Outcome × Progress}
    {opens : Step → List Path}
    (each : ∀ step progress,
      visit step progress = sweep a word budget clock limit (opens step) progress)
    (steps : List Step) (progress : Progress) :
    firstOutcome visit steps progress =
      sweep a word budget clock limit (steps.flatMap opens) progress := by
  induction steps generalizing progress with
  | nil => rfl
  | cons step rest ih =>
    rw [firstOutcome, List.flatMap_cons, sweep_append, each]
    obtain ⟨outcome, next⟩ := sweep a word budget clock limit (opens step) progress
    cases outcome with
    | exhausted => exact ih next
    | accepted | abandoned => rfl

theorem visit_eq_sweep (room : Nat) (path : Path) (step : Step) (progress : Progress) :
    visit a word budget clock room path step progress =
      sweep a word budget clock (room + path.length + 1) (preorder (a.moves word) room step path)
        progress := by
  induction room generalizing path step progress with
  | zero =>
    unfold visit preorder
    simp only [sweep, accepted?, passed, fresh]
    split
    · rfl
    cases accepts : a.accepts? word step.configuration with
    | some criterion => rfl
    | none =>
      cases (a.moves word step.configuration).filter (!onPath (step :: path) ·.configuration) with
      | nil => simp
      | cons next others => simp
  | succ room ih =>
    -- A step down takes one off `room` and adds one to the path, so the limit stays the same.
    have each : ∀ next known, visit a word budget clock room (step :: path) next known =
        sweep a word budget clock (room + 1 + path.length + 1)
          (preorder (a.moves word) room next (step :: path)) known := by
      intro next known
      rw [ih, List.length_cons]
      congr 1
      omega
    unfold visit preorder
    simp only [sweep, accepted?, passed, fresh]
    split
    · rfl
    cases accepts : a.accepts? word step.configuration with
    | some criterion => rfl
    | none =>
      cases (a.moves word step.configuration).filter (!onPath (step :: path) ·.configuration) with
      | nil => simp [sweep]
      | cons next others =>
        have roomLeft : ¬ room + 1 + path.length + 1 ≤ path.length + 1 := by omega
        simpa [roomLeft] using firstOutcome_eq_sweep each (next :: others) _

/-! ### What is in the preorder -/

section Preorder

variable {moves : Configuration → List Step} {room : Nat} {step next : Step} {path q : Path}

theorem mem_preorder_self : step :: path ∈ preorder moves room step path := by
  cases room <;> simp [preorder]

theorem mem_preorder_succ : q ∈ preorder moves (room + 1) step path ↔
    q = step :: path ∨
      ∃ next ∈ fresh moves step path, q ∈ preorder moves room next (step :: path) := by
  rw [preorder, List.mem_cons, List.mem_flatMap]

theorem length_le_of_mem_preorder (member : q ∈ preorder moves room step path) :
    q.length ≤ room + path.length + 1 := by
  induction room generalizing step path with
  | zero =>
    obtain rfl : q = step :: path := by simpa [preorder] using member
    simp
  | succ room ih =>
    rcases mem_preorder_succ.mp member with rfl | ⟨next, -, below⟩
    · simp
    · have := ih below
      rw [List.length_cons] at this
      omega

/-- What holds of a path and is kept when a path grows holds of all that go on from it. -/
theorem preorder_forall {P : Path → Prop}
    (grows : ∀ step path next, P (step :: path) → next ∈ fresh moves step path →
      P (next :: step :: path)) (first : P (step :: path)) :
    ∀ q ∈ preorder moves room step path, P q := by
  induction room generalizing step path with
  | zero =>
    intro q member
    obtain rfl : q = step :: path := by simpa [preorder] using member
    exact first
  | succ room ih =>
    intro q member
    rcases mem_preorder_succ.mp member with rfl | ⟨next, among, below⟩
    · exact first
    · exact ih (grows step path next first among) q below

/-- A path that is short enough is listed with all that it can grow to. -/
theorem grow_mem_preorder {last : Step} (member : last :: q ∈ preorder moves room step path)
    (short : q.length < room + path.length) (among : next ∈ fresh moves last q) :
    next :: last :: q ∈ preorder moves room step path := by
  induction room generalizing step path with
  | zero =>
    obtain ⟨rfl, rfl⟩ : last = step ∧ q = path := by simpa [preorder] using member
    omega
  | succ room ih =>
    rcases mem_preorder_succ.mp member with same | ⟨child, childAmong, below⟩
    · obtain ⟨rfl, rfl⟩ := List.cons.inj same
      exact mem_preorder_succ.mpr (Or.inr ⟨next, among, mem_preorder_self⟩)
    · have grown := ih below (by rw [List.length_cons]; omega)
      exact mem_preorder_succ.mpr (Or.inr ⟨child, childAmong, grown⟩)

/-- The last path of the preorder is one that cannot grow. -/
theorem getLast?_preorder : ∃ last q, (preorder moves room step path).getLast? = some (last :: q) ∧
    (fresh moves last q = [] ∨ room + path.length ≤ q.length) := by
  induction room generalizing step path with
  | zero => exact ⟨step, path, rfl, Or.inr (by omega)⟩
  | succ room ih =>
    rcases List.eq_nil_or_concat (fresh moves step path) with none | ⟨before, child, split⟩
    · exact ⟨step, path, by simp [preorder, none], Or.inl none⟩
    · -- What is opened last is opened below the last child.
      have below : ∃ last q,
          (preorder moves room child (step :: path)).getLast? = some (last :: q) ∧
            (fresh moves last q = [] ∨ room + (step :: path).length ≤ q.length) := ih
      obtain ⟨last, q, final, stuck⟩ := below
      refine ⟨last, q, ?_, ?_⟩
      · rw [preorder, split, List.concat_eq_append, List.flatMap_append, List.getLast?_cons,
          List.getLast?_append, List.flatMap_singleton, final]
        rfl
      · rw [List.length_cons] at stuck
        rcases stuck with none | long
        · exact Or.inl none
        · exact Or.inr (by omega)

end Preorder

/-! ### What a sweep amounts to -/

variable (a word) in
def passedAll (limit : Nat) (progress : Progress) (paths : List Path) : Progress :=
  paths.foldl (fun known => passed a word limit { known with entered := known.entered + 1 })
    progress

theorem passed_entered (limit : Nat) (progress : Progress) (path : Path) :
    (passed a word limit progress path).entered = progress.entered := by
  cases path with
  | nil => rfl
  | cons step path =>
    unfold passed
    dsimp only
    split
    · rfl
    · split <;> rfl

theorem entered_le_sweep (limit : Nat) (paths : List Path) (progress : Progress) :
    progress.entered ≤ (sweep a word budget clock limit paths progress).2.entered := by
  induction paths generalizing progress with
  | nil => exact Nat.le_refl _
  | cons path rest ih =>
    unfold sweep
    dsimp only
    split
    · exact Nat.le_succ _
    · split
      · exact Nat.le_succ _
      · refine Nat.le_trans ?_ (ih _)
        rw [passed_entered]
        exact Nat.le_succ _

theorem passedAll_entered (limit : Nat) (progress : Progress) (paths : List Path) :
    (passedAll a word limit progress paths).entered = progress.entered + paths.length := by
  induction paths generalizing progress with
  | nil => rfl
  | cons path paths ih =>
    rw [passedAll, List.foldl_cons, ← passedAll, ih, passed_entered, List.length_cons]
    dsimp only
    omega

variable (a word) in
theorem passedAll_initial_entered (limit : Nat) (paths : List Path) :
    (passedAll a word limit .initial paths).entered = paths.length := by
  rw [passedAll_entered]
  exact Nat.zero_add _

variable (a word) in
/-- A path has moves to grow by, but may not be longer than it is. -/
def Cut (limit : Nat) (paths : List Path) : Prop :=
  ∃ step path, step :: path ∈ paths ∧ fresh (a.moves word) step path ≠ [] ∧ limit ≤ path.length + 1

theorem cut_cons {limit : Nat} {path : Path} {paths : List Path} :
    Cut a word limit (path :: paths) ↔ Cut a word limit [path] ∨ Cut a word limit paths := by
  constructor
  · rintro ⟨step, q, member, cut⟩
    rcases List.mem_cons.mp member with rfl | member
    · exact Or.inl ⟨step, q, List.mem_singleton_self _, cut⟩
    · exact Or.inr ⟨step, q, member, cut⟩
  · rintro (⟨step, q, member, cut⟩ | ⟨step, q, member, cut⟩)
    · exact ⟨step, q, List.mem_cons.mpr (Or.inl (List.mem_singleton.mp member)), cut⟩
    · exact ⟨step, q, List.mem_cons_of_mem _ member, cut⟩

theorem passed_wasCut {limit : Nat} {progress : Progress} {path : Path} :
    (passed a word limit progress path).wasCut = true ↔
      progress.wasCut = true ∨ Cut a word limit [path] := by
  cases path with
  | nil => simp [passed, Cut]
  | cons step path =>
    simp only [passed, Cut, List.mem_singleton, List.cons.injEq]
    constructor
    · intro cut
      split at cut
      · exact Or.inl cut
      · split at cut
        · exact Or.inr ⟨step, path, ⟨rfl, rfl⟩, ‹_›, ‹_›⟩
        · exact Or.inl cut
    · rintro (before | ⟨_, _, ⟨rfl, rfl⟩, grows, long⟩)
      · split
        · exact before
        · split
          · rfl
          · exact before
      · rw [if_neg grows, if_pos long]

theorem passedAll_wasCut {limit : Nat} {progress : Progress} {paths : List Path} :
    (passedAll a word limit progress paths).wasCut = true ↔
      progress.wasCut = true ∨ Cut a word limit paths := by
  induction paths generalizing progress with
  | nil => simp [passedAll, Cut]
  | cons path paths ih =>
    rw [passedAll, List.foldl_cons, ← passedAll, ih, passed_wasCut, or_assoc, ← cut_cons]

variable (a word) in
def reasonAt (step : Step) : RejectReason :=
  a.diagnose step.configuration word.length (!(a.moves word step.configuration).isEmpty)

theorem passedAll_deadEnd {limit : Nat} {progress : Progress} {paths : List Path} {step : Step}
    {path : Path} (last : paths.getLast? = some (step :: path))
    (stuck : fresh (a.moves word) step path = [] ∨ limit ≤ path.length + 1) :
    (passedAll a word limit progress paths).deadEnd =
      some (step :: path, reasonAt a word step) := by
  -- The last path overwrites whatever dead end was known before it.
  obtain ⟨before, rfl⟩ := List.getLast?_eq_some_iff.mp last
  rw [passedAll, List.foldl_append, List.foldl_cons, List.foldl_nil]
  unfold passed
  dsimp only
  split
  · rfl
  · rw [if_pos (stuck.resolve_left ‹_›)]
    rfl

theorem isSpent_untimed (untimed : budget.timeout = none) (n : Nat) :
    budget.isSpent clock n = decide (budget.maxSteps < n) := by
  simp [Budget.isSpent, untimed]

/-- Paths that are not accepted are passed as long as the budget lasts. -/
theorem sweep_passed (untimed : budget.timeout = none) {limit : Nat} {progress : Progress}
    {before rest : List Path} (rejected : ∀ path ∈ before, accepted? a word path = none)
    (affordable : progress.entered + before.length ≤ budget.maxSteps) :
    sweep a word budget clock limit (before ++ rest) progress =
      sweep a word budget clock limit rest (passedAll a word limit progress before) := by
  induction before generalizing progress with
  | nil => rfl
  | cons path before ih =>
    rw [List.length_cons] at affordable
    have inBudget : ¬ budget.maxSteps < progress.entered + 1 := by omega
    have rejectedLater : ∀ path ∈ before, accepted? a word path = none := by
      exact fun path member => rejected path (List.mem_cons_of_mem _ member)
    rw [List.cons_append, sweep, passedAll, List.foldl_cons, ← passedAll]
    simp only [isSpent_untimed untimed, inBudget, decide_false, Bool.false_eq_true, if_false,
      rejected path List.mem_cons_self]
    exact ih rejectedLater (by rw [passed_entered]; dsimp only; omega)

/-- A sweep that comes to the end of its list has passed all of it. -/
theorem sweep_exhausted {limit : Nat} {paths : List Path} {progress known : Progress}
    (swept : sweep a word budget clock limit paths progress = (.exhausted, known)) :
    (∀ path ∈ paths, accepted? a word path = none) ∧
      known = passedAll a word limit progress paths := by
  induction paths generalizing progress with
  | nil => exact ⟨nofun, (Prod.mk.inj swept).2.symm⟩
  | cons path rest ih =>
    rw [sweep] at swept
    dsimp only at swept
    split at swept
    · cases swept
    · cases accepts : accepted? a word path with
      | some criterion =>
        rw [accepts] at swept
        cases swept
      | none =>
        rw [accepts] at swept
        obtain ⟨rejected, passed⟩ := ih swept
        exact ⟨List.forall_mem_cons.mpr ⟨accepts, rejected⟩, passed⟩

variable (a word) in
/-- A list of paths is affordable up to a first that is accepted, as a whole, or up to a path that
is one too many. -/
theorem sweep_split (paths : List Path) (maxSteps : Nat) :
    (∃ before path after criterion, paths = before ++ path :: after ∧
      (∀ q ∈ before, accepted? a word q = none) ∧ accepted? a word path = some criterion ∧
      before.length < maxSteps) ∨
    ((∀ q ∈ paths, accepted? a word q = none) ∧ paths.length ≤ maxSteps) ∨
    ∃ before path after, paths = before ++ path :: after ∧
      (∀ q ∈ before, accepted? a word q = none) ∧ before.length = maxSteps := by
  induction paths generalizing maxSteps with
  | nil => exact Or.inr (Or.inl ⟨by simp, Nat.zero_le _⟩)
  | cons path paths ih =>
    cases maxSteps with
    | zero => exact Or.inr (Or.inr ⟨[], path, paths, rfl, by simp, rfl⟩)
    | succ maxSteps =>
      cases accepts : accepted? a word path with
      | some criterion =>
        exact Or.inl ⟨[], path, paths, criterion, rfl, by simp, accepts, Nat.succ_pos _⟩
      | none =>
        have longer : ∀ before, (∀ q ∈ before, accepted? a word q = none) →
            ∀ q ∈ path :: before, accepted? a word q = none := by
          exact fun before rejected => List.forall_mem_cons.mpr ⟨accepts, rejected⟩
        rcases ih maxSteps with ⟨before, found, after, criterion, rfl, rejected, accepted, cheap⟩ |
          ⟨rejected, cheap⟩ | ⟨before, found, after, rfl, rejected, spent⟩
        · exact Or.inl ⟨path :: before, found, after, criterion, rfl, longer _ rejected, accepted,
            Nat.succ_lt_succ cheap⟩
        · exact Or.inr (Or.inl ⟨longer _ rejected, Nat.succ_le_succ cheap⟩)
        · exact Or.inr (Or.inr ⟨path :: before, found, after, rfl, longer _ rejected,
            congrArg Nat.succ spent⟩)

end Pushdown.Search

namespace Pushdown

open Search

/-- The paths that a run may open, in the order in which it would enter them. -/
def Automaton.paths (a : Automaton) (word : Word) (maxDepth : Nat) : List Path :=
  preorder (a.moves word) (maxDepth - 1) ⟨a.initialConfiguration, none⟩ []

/-- A search is a sweep of the paths that it may open. -/
theorem search_eq_sweep (a : Automaton) (word : Word) (budget : Budget) (clock : Clock) :
    search a word budget clock =
      sweep a word budget clock (budget.maxDepth - 1 + 1) (a.paths word budget.maxDepth) .initial :=
  visit_eq_sweep _ _ _ _

/-- A search that comes to an end has entered all the paths that it may open. The last of them is
the dead end that it remembers; it has no move to grow by, unless some path was cut. -/
theorem search_exhausted {a : Automaton} {word : Word} {budget : Budget} {clock : Clock}
    {known : Progress} (searched : search a word budget clock = (.exhausted, known)) :
    let paths := a.paths word budget.maxDepth
    (∀ q ∈ paths, accepted? a word q = none) ∧ known.entered = paths.length ∧
      (known.wasCut = true ↔ Cut a word (budget.maxDepth - 1 + 1) paths) ∧
      ∃ step path, paths.getLast? = some (step :: path) ∧
        known.deadEnd = some (step :: path, reasonAt a word step) ∧
        (known.wasCut = true ∨ fresh (a.moves word) step path = []) := by
  intro paths
  rw [search_eq_sweep] at searched
  obtain ⟨rejected, rfl⟩ := sweep_exhausted searched
  have cut : (passedAll a word (budget.maxDepth - 1 + 1) .initial paths).wasCut = true ↔
      Cut a word (budget.maxDepth - 1 + 1) paths := by
    rw [passedAll_wasCut]
    simp [Progress.initial]
  obtain ⟨step, path, last, ends⟩ : ∃ step path, paths.getLast? = some (step :: path) ∧
      (fresh (a.moves word) step path = [] ∨ budget.maxDepth - 1 ≤ path.length) := getLast?_preorder
  have stops := ends.imp_right Nat.succ_le_succ
  refine ⟨rejected, passedAll_initial_entered a word _ paths, cut, step, path, last,
    passedAll_deadEnd last stops, ?_⟩
  by_cases stuck : fresh (a.moves word) step path = []
  · exact Or.inr stuck
  · exact Or.inl (cut.mpr ⟨step, path, List.mem_of_getLast? last, stuck, stops.resolve_left stuck⟩)

/-- How a run may end that has no limit in time. -/
inductive Ending (a : Automaton) (word : Word) (budget : Budget) : Run → Prop where
  | accepted {before after : List Path} {path : Path} {criterion : Criterion} :
    a.paths word budget.maxDepth = before ++ path :: after →
    (∀ q ∈ before, accepted? a word q = none) → accepted? a word path = some criterion →
    before.length < budget.maxSteps →
    Ending a word budget ⟨.accepted criterion, ⟨word, path.reverse⟩, before.length + 1⟩
  | exhausted {step : Step} {path : Path} {reason : RejectReason} :
    (∀ q ∈ a.paths word budget.maxDepth, accepted? a word q = none) →
    (a.paths word budget.maxDepth).length ≤ budget.maxSteps →
    (a.paths word budget.maxDepth).getLast? = some (step :: path) →
    (Cut a word (budget.maxDepth - 1 + 1) (a.paths word budget.maxDepth) ∧ reason = .outOfBudget ∨
      ¬ Cut a word (budget.maxDepth - 1 + 1) (a.paths word budget.maxDepth) ∧
        reason = reasonAt a word step) →
    Ending a word budget
      ⟨.rejected reason, ⟨word, (step :: path).reverse⟩, (a.paths word budget.maxDepth).length⟩
  | abandoned {before after : List Path} {path : Path} :
    a.paths word budget.maxDepth = before ++ path :: after →
    (∀ q ∈ before, accepted? a word q = none) → before.length = budget.maxSteps →
    Ending a word budget ⟨.rejected .outOfBudget, ⟨word, path.tail.reverse⟩, budget.maxSteps + 1⟩

theorem Ending.trace_word {a : Automaton} {word : Word} {budget : Budget} {run : Run}
    (ending : Ending a word budget run) : run.trace.word = word := by
  cases ending <;> rfl

theorem run_ending {a : Automaton} {word : Word} {budget : Budget} {clock : Clock}
    (untimed : budget.timeout = none) : Ending a word budget (a.run word budget clock) := by
  -- The initial configuration is entered even where `maxDepth` is zero.
  obtain ⟨limit, limit_eq⟩ : ∃ limit, limit = budget.maxDepth - 1 + 1 := ⟨_, rfl⟩
  have swept : search a word budget clock = sweep a word budget clock limit
      (a.paths word budget.maxDepth) .initial := by rw [limit_eq]; exact search_eq_sweep _ _ _ _
  rw [Automaton.run, swept]
  rcases sweep_split a word (a.paths word budget.maxDepth) budget.maxSteps with
    ⟨before, path, after, criterion, split, rejected, accepted, cheap⟩ | ⟨rejected, cheap⟩ |
    ⟨before, path, after, split, rejected, spent⟩
  · have entered := passedAll_initial_entered a word limit before
    have inBudget : ¬ budget.maxSteps < before.length + 1 := by omega
    have found : sweep a word budget clock limit (before ++ path :: after) .initial =
        (.accepted path criterion,
          { passedAll a word limit .initial before with entered := before.length + 1 }) := by
      rw [sweep_passed untimed rejected (by simpa [Progress.initial] using cheap.le), sweep]
      simp [isSpent_untimed untimed, entered, inBudget, accepted]
    rw [split, found]
    exact .accepted split rejected accepted cheap
  · have found : sweep a word budget clock limit (a.paths word budget.maxDepth) .initial =
        (.exhausted, passedAll a word limit .initial (a.paths word budget.maxDepth)) := by
      have whole : sweep a word budget clock limit (a.paths word budget.maxDepth ++ []) .initial =
          sweep a word budget clock limit [] (passedAll a word limit .initial _) :=
        sweep_passed untimed rejected (by simpa [Progress.initial] using cheap)
      rwa [List.append_nil] at whole
    obtain ⟨-, entered, cut, step, path, last, dead, -⟩ := search_exhausted (swept.trans found)
    rw [found]
    simp only [Run.ofSearch, dead, Option.getD_some, entered]
    refine .exhausted rejected cheap last ?_
    split
    · next wasCut => exact Or.inl ⟨cut.mp wasCut, rfl⟩
    · next uncut => exact Or.inr ⟨cut.not.mp uncut, rfl⟩
  · have entered := passedAll_initial_entered a word limit before
    have found : sweep a word budget clock limit (before ++ path :: after) .initial =
        (.abandoned path.tail,
          { passedAll a word limit .initial before with entered := before.length + 1 }) := by
      rw [sweep_passed untimed rejected (by simpa [Progress.initial] using spent.le), sweep]
      simp [isSpent_untimed untimed, entered, spent]
    rw [split, found, spent]
    exact .abandoned split rejected spent

end Pushdown
