import Pushdown.Proofs.Lookups
import Pushdown.Search.Backtracking

/-!
# Backtracking

The search that keeps one path and a set of the configurations on it does what the search does that
hands paths on: `search_comes`. The set stays exact because no configuration is entered that is on
the path already, so that to erase one is to undo its entry. What holds of a call follows from
there.
-/

namespace Pushdown

open Search

namespace Searcher

variable {a : Automaton} {word : Word} {budget : Budget} {clock : Clock}

/-! ### One call in terms of the calls it makes -/

section Runs

variable {maxDepth : Nat} {visit visit' : Step → Searching (Option Criterion)} {c : Configuration}
  {s s' : Searcher} {expansion expansion' : Expansion} {tried : List Transition} {step : Step}

theorem run_tryEach_cons (t : Transition) (rest : List Transition) :
    (tryEach maxDepth visit c (t :: rest) expansion).run s =
      match t.fire? c with
      | none => (tryEach maxDepth visit c rest expansion).run s
      | some next =>
        if s.active.contains next then
          (tryEach maxDepth visit c rest { expansion with applicable := true }).run s
        else if maxDepth ≤ s.path.size then
          (tryEach maxDepth visit c rest { expansion with applicable := true }).run
            { s with wasCut := true }
        else
          match (visit ⟨next, some t⟩).run s with
          | .ok (some criterion) s' => .ok (some criterion, ⟨true, true⟩) s'
          | .ok none s' => (tryEach maxDepth visit c rest ⟨true, true⟩).run s'
          | .error e s' => .error e s' := by
  rw [tryEach]
  cases t.fire? c with
  | none => rfl
  | some next =>
    simp only [EStateM.run_bind, EStateM.run_get]
    split
    · rfl
    split
    · rfl
    rw [EStateM.run_bind]
    cases (visit ⟨next, some t⟩).run s with
    | error e s' => rfl
    | ok found s' => cases found <;> rfl

theorem run_tryEach_append (before after : List Transition) :
    (tryEach maxDepth visit c (before ++ after) expansion).run s =
      match (tryEach maxDepth visit c before expansion).run s with
      | .ok (none, expansion) s' => (tryEach maxDepth visit c after expansion).run s'
      | result => result := by
  induction before generalizing expansion s with
  | nil => rfl
  | cons t before ih =>
    rw [List.cons_append, run_tryEach_cons, run_tryEach_cons]
    cases t.fire? c with
    | none => exact ih
    | some next =>
      dsimp only
      split
      · exact ih
      split
      · exact ih
      cases (visit ⟨next, some t⟩).run s with
      | error e s' => rfl
      | ok found s' =>
        cases found with
        | none => exact ih
        | some criterion => rfl

theorem run_expand : (expand a word budget visit c).run s =
    match a.accepts? word c with
    | some criterion => .ok (some criterion) s
    | none =>
      match (tryEach budget.maxDepth visit c (a.candidates word c) {}).run s with
      | .ok (some criterion, _) s' => .ok (some criterion) s'
      | .ok (none, expansion) s' => .ok none (if expansion.explored then s' else
          { s' with deadEnd := some (s'.path, a.diagnose c word.length expansion.applicable) })
      | .error e s' => .error e s' := by
  rw [expand]
  cases a.accepts? word c with
  | some criterion => rfl
  | none =>
    dsimp only
    rw [Automaton.candidates, run_tryEach_append, EStateM.run_bind]
    cases (tryEach budget.maxDepth visit c _ {}).run s with
    | error e s' => rfl
    | ok result s' =>
      obtain ⟨found, expansion⟩ := result
      cases found with
      | some criterion => rfl
      | none =>
        dsimp only
        rw [EStateM.run_bind]
        cases (tryEach budget.maxDepth visit c _ expansion).run s' with
        | error e s' => rfl
        | ok result s' =>
          obtain ⟨found, ⟨applicable, explored⟩⟩ := result
          cases found <;> cases explored <;> rfl

theorem run_charge (budget : Budget) (clock : Clock) (s : Searcher) :
    (charge budget clock).run s =
      if budget.isSpent clock (s.entered + 1) then
        .error (if budget.maxSteps < s.entered + 1 then .steps budget.maxSteps else .deadline)
          s.count
      else .ok () s.count := by
  have entered : s.count.entered = s.entered + 1 := rfl
  rw [charge, EStateM.run_bind, EStateM.run_modify]
  dsimp only
  rw [EStateM.run_bind, EStateM.run_get, Budget.isSpent]
  dsimp only
  rw [entered]
  by_cases steps : budget.maxSteps < s.entered + 1
  · simp only [steps, decide_true, Bool.true_or, if_true]
    rfl
  · simp only [steps, decide_false, Bool.false_or, if_false]
    split <;> rfl

variable (a word) in
/-- What a call makes of what it has come to by trying all transitions. Unless something is found,
the configuration is left again. -/
def close (c : Configuration) : EStateM.Result Exceeded Searcher (Option Criterion × Expansion) →
    EStateM.Result Exceeded Searcher (Option Criterion)
  | .ok (some criterion, _) s => .ok (some criterion) s
  | .ok (none, ⟨_, true⟩) s => .ok none (s.leave c)
  | .ok (none, ⟨applicable, false⟩) s =>
    .ok none (leave { s with deadEnd := some (s.path, a.diagnose c word.length applicable) } c)
  | .error e s => .error e s

theorem run_visitWith : (visitWith a word budget clock visit step).run s =
    if budget.isSpent clock (s.entered + 1) then
      .error (if budget.maxSteps < s.entered + 1 then .steps budget.maxSteps else .deadline) s.count
    else
      match a.accepts? word step.configuration with
      | some criterion => .ok (some criterion) (s.count.enter step)
      | none =>
        close a word step.configuration ((tryEach budget.maxDepth visit step.configuration
          (a.candidates word step.configuration) {}).run (s.count.enter step)) := by
  rw [visitWith, EStateM.run_bind, run_charge]
  cases budget.isSpent clock (s.entered + 1) with
  | true => rfl
  | false =>
    simp only [Bool.false_eq_true, if_false]
    rw [EStateM.run_bind, EStateM.run_modify]
    dsimp only
    rw [EStateM.run_bind, run_expand]
    cases a.accepts? word step.configuration with
    | some criterion => rfl
    | none =>
      dsimp only
      cases (tryEach budget.maxDepth visit step.configuration
        (a.candidates word step.configuration) {}).run (s.count.enter step) with
      | error e s' => rfl
      | ok result s' =>
        obtain ⟨found, ⟨applicable, explored⟩⟩ := result
        cases found <;> cases explored <;> rfl

end Runs

/-! ### The search as its own continuation

How much room a search is given is fixed when it starts. A call that finds nothing leaves the path
as long as it was, so each of the calls that a search makes has as much room as it would give
itself. -/

def Restores (visit : Step → Searching (Option Criterion)) : Prop :=
  ∀ step s s', (visit step).run s = .ok none s' → s'.path = s.path

section Restores

variable {maxDepth : Nat} {visit visit' : Step → Searching (Option Criterion)} {c : Configuration}
  {s s' : Searcher} {expansion expansion' : Expansion} {tried : List Transition} {step : Step}

theorem Restores.tryEach (restores : Restores visit)
    (found : (tryEach maxDepth visit c tried expansion).run s = .ok (none, expansion') s') :
    s'.path = s.path := by
  induction tried generalizing expansion s with
  | nil =>
    cases found
    rfl
  | cons t rest ih =>
    rw [run_tryEach_cons] at found
    split at found
    · exact ih found
    split at found
    · exact ih found
    split at found
    · have path := ih found
      exact path
    split at found
    · cases found
    · next visited => rw [ih found, restores _ _ _ visited]
    · cases found

theorem Restores.visitWith (restores : Restores visit) :
    Restores (visitWith a word budget clock visit) := by
  intro step s s' found
  rw [run_visitWith] at found
  split at found
  · cases found
  split at found
  · cases found
  cases result : (Searcher.tryEach budget.maxDepth visit step.configuration
      (a.candidates word step.configuration) {}).run (s.count.enter step) with
  | error e s'' =>
    rw [result] at found
    cases found
  | ok result' s'' =>
    obtain ⟨found', ⟨applicable, explored⟩⟩ := result'
    rw [result] at found
    cases found' with
    | some criterion => cases found
    | none =>
      have grown : s''.path = s.path.push step := restores.tryEach result
      cases explored <;> cases found <;> simp [leave, grown]

theorem restores_searchWithin (room : Nat) : Restores (searchWithin a word budget clock room) := by
  induction room with
  | zero =>
    apply Restores.visitWith
    intro step s s' found
    cases found
    rfl
  | succ room ih => exact ih.visitWith

theorem tryEach_congr (restores : Restores visit) (path : Array Step)
    (same : ∀ step s, s.path = path → path.size < maxDepth →
      (visit' step).run s = (visit step).run s) (here : s.path = path) :
    (tryEach maxDepth visit' c tried expansion).run s =
      (tryEach maxDepth visit c tried expansion).run s := by
  induction tried generalizing expansion s with
  | nil => rfl
  | cons t rest ih =>
    rw [run_tryEach_cons, run_tryEach_cons]
    split
    · exact ih here
    split
    · exact ih here
    split
    · exact ih here
    · next long =>
      rw [same _ s here (by rw [← here]; omega)]
      cases visited : (visit ⟨_, some t⟩).run s with
      | error e s' => rfl
      | ok found s' =>
        cases found with
        | some criterion => rfl
        | none => exact ih ((restores _ _ _ visited).trans here)

theorem visitWith_congr (restores : Restores visit)
    (same : ∀ next s', s'.path = s.path.push step → s.path.size + 1 < budget.maxDepth →
      (visit' next).run s' = (visit next).run s') :
    (visitWith a word budget clock visit' step).run s =
      (visitWith a word budget clock visit step).run s := by
  rw [run_visitWith, run_visitWith, tryEach_congr restores (s.path.push step) _ rfl]
  intro next s' path deep
  exact same next s' path (by simpa using deep)

theorem searchWithin_succ {room : Nat} (enough : budget.maxDepth ≤ room + s.path.size + 1) :
    (searchWithin a word budget clock (room + 1) step).run s =
      (searchWithin a word budget clock room step).run s := by
  induction room generalizing s step with
  | zero =>
    apply visitWith_congr
    · intro step s s' found
      cases found
      rfl
    · intro next s' path deep
      omega
  | succ room ih =>
    apply visitWith_congr (restores_searchWithin room)
    intro next s' path deep
    apply ih
    rw [path, Array.size_push]
    omega

/-- A search is one call whose own calls are searches. -/
theorem search_eq (step : Step) (s : Searcher) : (search a word budget clock step).run s =
    (visitWith a word budget clock (search a word budget clock) step).run s := by
  have room : ∀ step s, (search a word budget clock step).run s =
      (searchWithin a word budget clock (budget.maxDepth - (s.path.size + 1)) step).run s :=
    fun _ _ => rfl
  rw [room, ← searchWithin_succ (by omega)]
  apply Eq.symm
  apply visitWith_congr (restores_searchWithin _)
  intro next s' path deep
  rw [room, path, Array.size_push]
  have less : budget.maxDepth - (s.path.size + 1) =
      budget.maxDepth - (s.path.size + 1 + 1) + 1 := by omega
  rw [less, searchWithin_succ]
  rw [path, Array.size_push]
  omega

end Restores

/-! ### What a searcher holds -/

def configurations (s : Searcher) : List Configuration := s.path.toList.map Step.configuration

structure Consistent (s : Searcher) : Prop where
  distinct : s.configurations.Nodup
  active : ∀ c, c ∈ s.active ↔ c ∈ s.configurations

def openPath (s : Searcher) : Path := s.path.toList.reverse

def progress (s : Searcher) : Progress where
  entered := s.entered
  deadEnd := s.deadEnd.map fun (path, reason) => (path.toList.reverse, reason)
  wasCut := s.wasCut

section Consistent

variable {s s' : Searcher} {step : Step}

@[simp] theorem configurations_enter :
    (s.enter step).configurations = s.configurations ++ [step.configuration] := by
  simp [configurations, enter]

@[simp] theorem progress_entered : s.progress.entered = s.entered := rfl

@[simp] theorem openPath_count : s.count.openPath = s.openPath := rfl

theorem Consistent.count (consistent : s.Consistent) : s.count.Consistent :=
  ⟨consistent.distinct, consistent.active⟩

@[simp] theorem openPath_enter : (s.enter step).openPath = step :: s.openPath := by
  simp [openPath, enter]

@[simp] theorem length_openPath : s.openPath.length = s.path.size := by
  simp [openPath]

theorem consistent_initial : initial.Consistent := by
  constructor <;> simp [initial, configurations]

theorem Consistent.contains (consistent : s.Consistent) (c : Configuration) :
    s.active.contains c = onPath s.openPath c := by
  rw [Bool.eq_iff_iff, Std.HashSet.contains_iff_mem, consistent.active, ← Bool.not_eq_false,
    onPath_eq_false, Decidable.not_not, openPath, List.map_reverse, List.mem_reverse]
  rfl

theorem Consistent.enter (consistent : s.Consistent) (new : step.configuration ∉ s.active) :
    (s.enter step).Consistent := by
  rw [consistent.active] at new
  constructor
  · rw [configurations_enter, ← List.concat_eq_append]
    exact consistent.distinct.concat new
  · intro c
    rw [configurations_enter, List.mem_append, List.mem_singleton, ← consistent.active,
      Searcher.enter, Std.HashSet.mem_insert, beq_iff_eq, or_comm, eq_comm]

/-- To take off what was put on the path last undoes that it was entered. -/
theorem Consistent.leave (consistent : s.Consistent) (new : step.configuration ∉ s.active)
    (consistent' : s'.Consistent) (grown : s'.path = s.path.push step) :
    (s'.leave step.configuration).path = s.path ∧ (s'.leave step.configuration).Consistent := by
  have path : (s'.leave step.configuration).path = s.path := by
    rw [Searcher.leave, grown, Array.pop_push]
  have before : (s'.leave step.configuration).configurations = s.configurations := by
    rw [configurations, path, configurations]
  have after : s'.configurations = s.configurations ++ [step.configuration] := by
    rw [← configurations_enter, configurations, grown]
    rfl
  refine ⟨path, before ▸ consistent.distinct, ?_⟩
  intro c
  rw [before, Searcher.leave, Std.HashSet.mem_erase, beq_eq_false_iff_ne, consistent'.active, after,
    List.mem_append, List.mem_singleton]
  rw [consistent.active] at new
  constructor
  · rintro ⟨other, before | same⟩
    · exact before
    · exact absurd same.symm other
  · intro before
    exact ⟨fun same => new (same ▸ before), Or.inl before⟩

end Consistent

/-! ### What a call comes to -/

def last {α : Type} : EStateM.Result Exceeded Searcher α → Searcher
  | .ok _ s => s
  | .error _ s => s

/-- What a call has found, in the terms of a search that hands its path on. -/
def shown : EStateM.Result Exceeded Searcher (Option Criterion) → Outcome × Progress
  | .ok (some criterion) s => (.accepted s.openPath criterion, s.progress)
  | .ok none s => (.exhausted, s.progress)
  | .error _ s => (.abandoned s.openPath, s.progress)

/-- A call comes to what is to be found. Whatever it is, the set still holds the configurations on
the path, and if it is nothing, the path is as it was. -/
structure Comes (s : Searcher) (result : EStateM.Result Exceeded Searcher (Option Criterion))
    (found : Outcome × Progress) : Prop where
  shows : shown result = found
  consistent : (last result).Consistent
  restored : ∀ s', result = .ok none s' → s'.path = s.path

def found : EStateM.Result Exceeded Searcher (Option Criterion × Expansion) →
    EStateM.Result Exceeded Searcher (Option Criterion)
  | .ok (found, _) s => .ok found s
  | .error e s => .error e s

structure Tries (s : Searcher)
    (result : EStateM.Result Exceeded Searcher (Option Criterion × Expansion))
    (tried : Outcome × Progress) (became : Expansion) : Prop where
  comes : Comes s (found result) tried
  became : ∀ expansion s', result = .ok (none, expansion) s' → expansion = became

def expanded (maxDepth : Nat) (path : Path) (c : Configuration) (tried : List Transition)
    (expansion : Expansion) : Expansion :=
  let moves : List Step := tried.filterMap fun t => (t.fire? c).map (⟨·, some t⟩)
  { applicable := expansion.applicable || !moves.isEmpty
    explored := expansion.explored || decide (path.length < maxDepth) &&
      !(moves.filter (!onPath path ·.configuration)).isEmpty }

theorem expanded_nil (maxDepth : Nat) (path : Path) (c : Configuration) (expansion : Expansion) :
    expanded maxDepth path c [] expansion = expansion := by
  simp [expanded]

theorem expanded_cons (maxDepth : Nat) (path : Path) (c : Configuration) (t : Transition)
    (rest : List Transition) (expansion : Expansion) :
    expanded maxDepth path c (t :: rest) expansion =
      expanded maxDepth path c rest (match t.fire? c with
        | none => expansion
        | some next =>
          if onPath path next then { expansion with applicable := true }
          else if maxDepth ≤ path.length then { expansion with applicable := true }
          else ⟨true, true⟩) := by
  unfold expanded
  rw [List.filterMap_cons]
  cases t.fire? c with
  | none => rfl
  | some next =>
    by_cases long : maxDepth ≤ path.length
    · cases back : onPath path next <;> simp [back, long, Nat.not_lt.mpr long]
    · cases back : onPath path next <;> simp [back, long, Nat.lt_of_not_le long]

section Comes

variable {visit : Step → Searching (Option Criterion)} {s s' : Searcher} {step : Step}

variable (a word budget clock) in
/-- From the end of a given path, calls come to what a search finds that hands on the path. -/
def Searches (visit : Step → Searching (Option Criterion)) (path : Array Step) : Prop :=
  ∀ next s, s.Consistent → s.path = path → next.configuration ∉ s.active →
    Comes s ((visit next).run s)
      (Search.visit a word budget clock (budget.maxDepth - (path.size + 1)) s.openPath next
        s.progress)

theorem Comes.of_path {result : EStateM.Result Exceeded Searcher (Option Criterion)}
    {found : Outcome × Progress} (comes : Comes s' result found) (path : s'.path = s.path) :
    Comes s result found :=
  ⟨comes.shows, comes.consistent, fun s'' nothing => (comes.restored s'' nothing).trans path⟩

theorem Tries.of_path {result : EStateM.Result Exceeded Searcher (Option Criterion × Expansion)}
    {tried : Outcome × Progress} {became : Expansion} (tries : Tries s' result tried became)
    (path : s'.path = s.path) : Tries s result tried became :=
  ⟨tries.comes.of_path path, tries.became⟩

/-- After a call that finds nothing the path is as it was, so that the rest is tried from there. -/
theorem Tries.visited {visited : EStateM.Result Exceeded Searcher (Option Criterion)}
    {seen : Outcome × Progress} {became : Expansion}
    {rest : Searcher → EStateM.Result Exceeded Searcher (Option Criterion × Expansion)}
    {more : Progress → Outcome × Progress} : Comes s visited seen →
    (∀ s', s'.Consistent → s'.path = s.path → Tries s' (rest s') (more s'.progress) became) →
    Tries s
      (match visited with
        | .ok (some criterion) s' => .ok (some criterion, ⟨true, true⟩) s'
        | .ok none s' => rest s'
        | .error e s' => .error e s')
      (match seen with
        | (.exhausted, progress) => more progress
        | found => found) became := by
  intro comes tries
  rw [← comes.shows]
  cases visited with
  | error e s' => exact ⟨⟨rfl, comes.consistent, by rintro _ ⟨⟩⟩, by rintro _ _ ⟨⟩⟩
  | ok found s' =>
    cases found with
    | some criterion => exact ⟨⟨rfl, comes.consistent, by rintro _ ⟨⟩⟩, by rintro _ _ ⟨⟩⟩
    | none =>
      have path : s'.path = s.path := comes.restored s' rfl
      exact (tries s' comes.consistent path).of_path path

theorem tryEach_comes (c : Configuration) (path : Array Step)
    (searches : path.size < budget.maxDepth → Searches a word budget clock visit path)
    (tried : List Transition) (expansion : Expansion) (consistent : s.Consistent)
    (here : s.path = path) :
    Tries s ((tryEach budget.maxDepth visit c tried expansion).run s)
      (Search.tryEach (follow a word budget clock s.openPath (budget.maxDepth - path.size))
        s.openPath c tried s.progress)
      (expanded budget.maxDepth s.openPath c tried expansion) := by
  induction tried generalizing expansion s with
  | nil =>
    rw [expanded_nil]
    refine ⟨⟨rfl, consistent, ?_⟩, ?_⟩
    · rintro s' ⟨⟩
      rfl
    · rintro expansion' s' ⟨⟩
      rfl
  | cons t rest ih =>
    rw [run_tryEach_cons, Search.tryEach, expanded_cons]
    cases t.fire? c with
    | none => exact ih expansion consistent here
    | some next =>
      dsimp only
      rw [consistent.contains, length_openPath]
      cases back : onPath s.openPath next with
      | true => exact ih _ consistent here
      | false =>
        simp only [Bool.false_eq_true, if_false]
        by_cases long : budget.maxDepth ≤ s.path.size
        · rw [if_pos long, if_pos long]
          have cut : budget.maxDepth - path.size = 0 := by rw [← here]; omega
          have consistent' : { s with wasCut := true }.Consistent := ⟨consistent.1, consistent.2⟩
          have tries := ih { expansion with applicable := true } consistent' here
          rw [cut] at tries ⊢
          exact tries.of_path rfl
        · rw [if_neg long, if_neg long]
          have deep : path.size < budget.maxDepth := by rw [← here]; omega
          have less : budget.maxDepth - path.size = budget.maxDepth - (path.size + 1) + 1 := by
            omega
          have new : next ∉ s.active := by
            rw [← Std.HashSet.contains_iff_mem, consistent.contains, back]
            simp
          rw [less] at ih ⊢
          apply Tries.visited (searches deep ⟨next, some t⟩ s consistent here new)
          intro s' consistent' path'
          have same : s'.openPath = s.openPath := by rw [openPath, path', openPath]
          have tries := ih ⟨true, true⟩ consistent' (path'.trans here)
          rw [same] at tries
          exact tries

theorem exists_of_shown_eq_exhausted
    {result : EStateM.Result Exceeded Searcher (Option Criterion × Expansion)} {known : Progress}
    (shows : shown (found result) = (.exhausted, known)) :
    ∃ expansion s', result = .ok (none, expansion) s' ∧ s'.progress = known := by
  cases result with
  | error e s' => cases shows
  | ok result s' =>
    obtain ⟨found, expansion⟩ := result
    cases found with
    | some criterion => cases shows
    | none => exact ⟨expansion, s', rfl, (Prod.mk.inj shows).2⟩

/-- What becomes of all that is tried from the end of a path is told by the moves there. -/
theorem expanded_candidates (maxDepth : Nat) (path : Path) (step : Step) :
    expanded maxDepth (step :: path) step.configuration (a.candidates word step.configuration) {} =
      { applicable := !(a.moves word step.configuration).isEmpty
        explored := decide (path.length + 1 < maxDepth) &&
          !(fresh (a.moves word) step path).isEmpty } := by
  rw [expanded, ← Automaton.moves, List.length_cons, Bool.false_or, Bool.false_or]
  rfl

variable {result : EStateM.Result Exceeded Searcher (Option Criterion × Expansion)}

theorem close_explored {tried : Outcome × Progress} (consistent : s.Consistent)
    (new : step.configuration ∉ s.active) (comes : Comes (s.count.enter step) (found result) tried)
    (explored : ∀ expansion s', result = .ok (none, expansion) s' → expansion.explored = true) :
    Comes s (close a word step.configuration result) tried := by
  cases result with
  | error e s' => exact ⟨comes.shows, comes.consistent, nofun⟩
  | ok result s' =>
    obtain ⟨found, ⟨applicable, explored'⟩⟩ := result
    cases found with
    | some criterion => exact ⟨comes.shows, comes.consistent, nofun⟩
    | none =>
      obtain rfl : explored' = true := explored _ _ rfl
      have grown : s'.path = s.path.push step := comes.restored s' rfl
      obtain ⟨path, consistent'⟩ := consistent.leave new comes.consistent grown
      refine ⟨comes.shows, consistent', ?_⟩
      rintro _ ⟨⟩
      exact path

/-- A configuration that nothing was followed from is a dead end. -/
theorem close_unexplored {wasCut : Bool} (consistent : s.Consistent)
    (new : step.configuration ∉ s.active)
    (tries : Tries (s.count.enter step) result
      (.exhausted, { (s.count.enter step).progress with wasCut := wasCut })
      ⟨!(a.moves word step.configuration).isEmpty, false⟩) :
    Comes s (close a word step.configuration result)
      (.exhausted, ⟨s.entered + 1, some (step :: s.openPath, reasonAt a word step), wasCut⟩) := by
  obtain ⟨expansion, s', rfl, known⟩ := exists_of_shown_eq_exhausted tries.comes.shows
  obtain rfl := tries.became expansion s' rfl
  have grown : s'.path = s.path.push step := tries.comes.restored s' rfl
  obtain ⟨path, left⟩ := consistent.leave new tries.comes.consistent grown
  have entered : s'.entered = s.entered + 1 := congrArg Progress.entered known
  have wasCut' : s'.wasCut = wasCut := congrArg Progress.wasCut known
  refine ⟨?_, ⟨left.distinct, left.active⟩, ?_⟩
  · simp [close, shown, progress, leave, reasonAt, openPath, grown, entered, wasCut']
  · rintro _ ⟨⟩
    exact path

/-- All that is tried from a configuration that was just entered. -/
theorem tryEach_candidates (searches : s.path.size + 1 < budget.maxDepth →
      Searches a word budget clock visit (s.path.push step))
    (consistent : s.Consistent) (new : step.configuration ∉ s.active) :
    Tries (s.count.enter step)
      ((tryEach budget.maxDepth visit step.configuration (a.candidates word step.configuration)
        {}).run (s.count.enter step))
      (firstOutcome (follow a word budget clock (step :: s.openPath)
        (budget.maxDepth - (s.path.size + 1))) (fresh (a.moves word) step s.openPath)
        (s.count.enter step).progress)
      ⟨!(a.moves word step.configuration).isEmpty, decide (s.path.size + 1 < budget.maxDepth) &&
        !(fresh (a.moves word) step s.openPath).isEmpty⟩ := by
  have tries := tryEach_comes step.configuration (s.path.push step) (by simpa using searches)
    (a.candidates word step.configuration) {} (consistent.count.enter new) rfl
  rwa [openPath_enter, openPath_count, tryEach_eq_firstOutcome, ← Automaton.moves,
    Array.size_push, expanded_candidates, length_openPath] at tries

theorem visitWith_comes (searches : s.path.size + 1 < budget.maxDepth →
      Searches a word budget clock visit (s.path.push step))
    (consistent : s.Consistent) (new : step.configuration ∉ s.active) :
    Comes s ((visitWith a word budget clock visit step).run s)
      (Search.visit a word budget clock (budget.maxDepth - (s.path.size + 1)) s.openPath step
        s.progress) := by
  have entered := consistent.count.enter new
  have tries := tryEach_candidates searches consistent new
  rw [run_visitWith]
  rcases visit_cases a word budget clock (budget.maxDepth - (s.path.size + 1)) s.openPath step
      s.progress with ⟨spent, found⟩ | ⟨allowed, criterion, accepts, found⟩ |
    ⟨allowed, rejected, ⟨wasCut, stuck, found⟩ | ⟨less, room, grows, found⟩⟩
  · rw [progress_entered] at spent
    rw [if_pos spent, found]
    exact ⟨rfl, consistent.count, nofun⟩
  · rw [progress_entered] at allowed
    rw [if_neg (Bool.eq_false_iff.mp allowed), accepts, found]
    refine ⟨?_, entered, nofun⟩
    rw [shown, openPath_enter, openPath_count]
    rfl
  · rw [progress_entered] at allowed
    rw [if_neg (Bool.eq_false_iff.mp allowed), rejected, found]
    apply close_unexplored consistent new
    -- Nothing is followed, as there is no move off the path or no room for one.
    rcases stuck with ⟨none, rfl⟩ | ⟨grows, room, rfl⟩
    · rw [none, List.isEmpty_nil, Bool.not_true, Bool.and_false] at tries
      exact tries
    · rw [room, firstOutcome_cut _ _ _ _ _ grows, decide_eq_false (by omega), Bool.false_and]
        at tries
      exact tries
  · rw [progress_entered] at allowed
    rw [if_neg (Bool.eq_false_iff.mp allowed), rejected, found]
    apply close_explored consistent new
    · have comes := tries.comes
      rw [room] at comes
      exact comes
    · intro expansion s' result
      rw [tries.became expansion s' result, decide_eq_true (by omega), Bool.true_and]
      simpa using grows

/-- Where the path has no configuration twice and the set has those on it, to search from another
one comes to what a search finds that hands on the path. -/
theorem search_comes (a : Automaton) (word : Word) (budget : Budget) (clock : Clock)
    (consistent : s.Consistent) (new : step.configuration ∉ s.active) :
    Comes s ((search a word budget clock step).run s)
      (Search.visit a word budget clock (budget.maxDepth - (s.path.size + 1)) s.openPath step
        s.progress) := by
  -- The path gets longer with every call, so the room that is left gets smaller.
  generalize left : budget.maxDepth - s.path.size = room
  induction room using Nat.strongRecOn generalizing s step with
  | ind room ih =>
    rw [search_eq]
    apply visitWith_comes _ consistent new
    intro deep next s' consistent' path new'
    have size : s'.path.size = s.path.size + 1 := by rw [path, Array.size_push]
    have comes := ih (budget.maxDepth - s'.path.size) (by omega) consistent' new' rfl
    rw [path] at comes
    exact comes

/-- The run of the search that keeps one path is that of the search that hands paths on. -/
theorem run_eq (a : Automaton) (word : Word) (budget : Budget) (clock : Clock) :
    run a word budget clock = a.run word budget clock := by
  have new : a.initialConfiguration ∉ initial.active := by simp [initial]
  have comes : Comes initial
      ((search a word budget clock ⟨a.initialConfiguration, none⟩).run initial) _ :=
    search_comes a word budget clock consistent_initial new
  have start : Search.visit a word budget clock (budget.maxDepth - (initial.path.size + 1))
      initial.openPath ⟨a.initialConfiguration, none⟩ initial.progress =
        Search.search a word budget clock := rfl
  rw [start] at comes
  rw [run, Automaton.run, ← comes.shows]
  cases (search a word budget clock ⟨a.initialConfiguration, none⟩).run initial with
  | error e s' => simp [conclude, shown, Run.ofSearch, openPath, progress]
  | ok found s' =>
    cases found with
    | some criterion => simp [conclude, shown, Run.ofSearch, openPath, progress]
    | none => cases dead : s'.deadEnd <;> simp [conclude, shown, Run.ofSearch, progress, dead]

end Comes

end Searcher

end Pushdown
