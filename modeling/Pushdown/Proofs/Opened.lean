import Pushdown.Proofs.Paths

/-!
# Opened paths

`Opens` says which paths a search goes on: it goes on a path that the budget allows, and takes a
move once those before it came back empty-handed. By `opened_iff` these are the paths that a sweep
comes to. What a search hands back, an accepted path, an open one or a dead end, are paths that it
has gone on.
-/

namespace Pushdown.Search

section Opens

variable (a : Automaton) (word : Word) (budget : Budget) (clock : Clock)

inductive Opens : (room : Nat) → Path → Step → Progress → Path → Prop where
  | enter {room : Nat} {path : Path} {step : Step} {progress : Progress} :
    budget.isSpent clock (progress.entered + 1) = false →
      Opens room path step progress (step :: path)
  | follow {room : Nat} {path q : Path} {step next : Step} {before after : List Step}
    {progress known : Progress} :
    budget.isSpent clock (progress.entered + 1) = false →
      a.accepts? word step.configuration = none →
      fresh (a.moves word) step path = before ++ next :: after →
      firstOutcome (visit a word budget clock room (step :: path)) before
        { progress with entered := progress.entered + 1 } = (.exhausted, known) →
      Opens room (step :: path) next known q → Opens (room + 1) path step progress q

def Opened : Path → Prop :=
  Opens a word budget clock (budget.maxDepth - 1) [] ⟨a.initialConfiguration, none⟩ .initial

end Opens

variable {a : Automaton} {word : Word} {budget : Budget} {clock : Clock}

namespace Opens

variable {room : Nat} {path q : Path} {step : Step} {progress : Progress}

theorem suffix (opened : Opens a word budget clock room path step progress q) :
    step :: path <:+ q := by
  induction opened with
  | enter => exact List.suffix_refl _
  | follow _ _ _ _ _ ih => exact (List.suffix_cons _ _).trans ih

/-- A visit has gone on every path that leads to one it goes on. -/
theorem of_suffix (opened : Opens a word budget clock room path step progress q) {p : Path}
    (initial : p <:+ q) (begun : step :: path <:+ p) :
    Opens a word budget clock room path step progress p := by
  induction opened generalizing p with
  | enter allowed =>
    obtain rfl := begun.eq_of_length_le initial.length_le
    exact .enter allowed
  | @follow room path q step next before after progress known allowed rejected moves came opened
      ih =>
    rcases List.suffix_or_suffix_of_suffix initial opened.suffix with short | long
    · rcases List.suffix_cons_iff.mp short with rfl | shorter
      · exact .follow allowed rejected moves came (ih initial (List.suffix_refl _))
      · obtain rfl := begun.eq_of_length_le shorter.length_le
        exact .enter allowed
    · exact .follow allowed rejected moves came (ih initial long)

end Opens

/-! ### What a sweep comes to -/

section Swept

variable {room : Nat} {path q : Path} {step : Step} {progress known : Progress}

theorem sweep_append_exhausted {limit : Nat} {xs ys : List Path} :
    sweep a word budget clock limit (xs ++ ys) progress = (.exhausted, known) ↔
      ∃ between, sweep a word budget clock limit xs progress = (.exhausted, between) ∧
        sweep a word budget clock limit ys between = (.exhausted, known) := by
  rw [sweep_append]
  cases sweep a word budget clock limit xs progress with
  | mk outcome between => cases outcome <;> simp

/-- A sweep gets past a path that may grow and that others go on from if it may enter it and does
not accept it. It learns nothing from it then. -/
theorem sweep_cons_exhausted {rest : List Path} (grows : fresh (a.moves word) step path ≠ []) :
    sweep a word budget clock (room + 1 + path.length + 1) ((step :: path) :: rest) progress =
        (.exhausted, known) ↔
      budget.isSpent clock (progress.entered + 1) = false ∧
      a.accepts? word step.configuration = none ∧
      sweep a word budget clock (room + (step :: path).length + 1) rest
        { progress with entered := progress.entered + 1 } = (.exhausted, known) := by
  have short : ¬ room + 1 + path.length + 1 ≤ path.length + 1 := by omega
  rw [sweep, accepted?, passed, if_neg grows, if_neg short, List.length_cons,
    Nat.add_comm path.length 1, ← Nat.add_assoc room 1]
  cases budget.isSpent clock (progress.entered + 1) with
  | true => simp
  | false => cases a.accepts? word step.configuration <;> simp

theorem firstOutcome_visit (room : Nat) (path : Path) (step : Step) (steps : List Step)
    (progress : Progress) :
    firstOutcome (visit a word budget clock room (step :: path)) steps progress =
      sweep a word budget clock (room + (step :: path).length + 1)
        (steps.flatMap (preorder (a.moves word) room · (step :: path))) progress :=
  firstOutcome_eq_sweep (visit_eq_sweep room (step :: path)) steps progress

theorem append_cons_eq_flatMap {α β : Type} {f : α → List β} {xs : List α} {before after : List β}
    {y : β} (split : xs.flatMap f = before ++ y :: after) :
    ∃ earlier x later inside outside, xs = earlier ++ x :: later ∧
      before = earlier.flatMap f ++ inside ∧ f x = inside ++ y :: outside := by
  induction xs generalizing before with
  | nil => simp at split
  | cons x xs ih =>
    rw [List.flatMap_cons, List.append_eq_append_iff] at split
    rcases split with ⟨rest, rfl, later⟩ | ⟨rest, here, later⟩
    · obtain ⟨earlier, x', others, inside, outside, rfl, rfl, found⟩ := ih later
      exact ⟨x :: earlier, x', others, inside, outside, rfl, by simp, found⟩
    · cases rest with
      | nil =>
        have later : xs.flatMap f = [] ++ y :: after := later.symm
        obtain ⟨earlier, x', others, inside, outside, rfl, nothing, found⟩ := ih later
        refine ⟨x :: earlier, x', others, inside, outside, rfl, ?_, found⟩
        rw [List.flatMap_cons, List.append_assoc, ← nothing, here, List.append_nil, List.append_nil]
      | cons y' rest =>
        obtain ⟨rfl, -⟩ := List.cons.inj later
        exact ⟨[], x, xs, before, rest, rfl, rfl, here⟩

theorem Opens.swept (opened : Opens a word budget clock room path step progress q) :
    ∃ before after known, preorder (a.moves word) room step path = before ++ q :: after ∧
      sweep a word budget clock (room + path.length + 1) before progress = (.exhausted, known) ∧
      budget.isSpent clock (known.entered + 1) = false := by
  induction opened with
  | @enter room path step progress allowed =>
    obtain ⟨rest, split⟩ : ∃ rest,
        preorder (a.moves word) room step path = (step :: path) :: rest := by
      cases room <;> simp [preorder]
    exact ⟨[], rest, progress, split, rfl, allowed⟩
  | @follow room path q step next earlier later progress between allowed rejected moves came _ ih =>
    obtain ⟨before, after, known, split, swept, allowed'⟩ := ih
    have grows : fresh (a.moves word) step path ≠ [] := by simp [moves]
    rw [firstOutcome_visit] at came
    refine ⟨(step :: path) :: (earlier.flatMap (preorder (a.moves word) room · (step :: path)) ++
      before), after ++ later.flatMap (preorder (a.moves word) room · (step :: path)), known,
      by simp [preorder, moves, split], ?_, allowed'⟩
    rw [sweep_cons_exhausted grows, sweep_append_exhausted]
    exact ⟨allowed, rejected, between, came, swept⟩

/-- A visit goes on the paths that a sweep comes to while the budget lasts. -/
theorem opens_iff : Opens a word budget clock room path step progress q ↔
    ∃ before after known, preorder (a.moves word) room step path = before ++ q :: after ∧
      sweep a word budget clock (room + path.length + 1) before progress = (.exhausted, known) ∧
      budget.isSpent clock (known.entered + 1) = false := by
  refine ⟨Opens.swept, ?_⟩
  rintro ⟨before, after, known, split, swept, allowed⟩
  induction room generalizing path step progress before after with
  | zero =>
    cases before with
    | nil =>
      obtain ⟨rfl, -⟩ := List.cons.inj split
      obtain ⟨-, rfl⟩ := Prod.mk.inj swept
      exact .enter allowed
    | cons p before => simp [preorder] at split
  | succ room ih =>
    cases before with
    | nil =>
      obtain ⟨rfl, -⟩ := List.cons.inj split
      obtain ⟨-, rfl⟩ := Prod.mk.inj swept
      exact .enter allowed
    | cons p before =>
      obtain ⟨rfl, below⟩ := List.cons.inj split
      obtain ⟨earlier, next, later, inside, outside, moves, rfl, inner⟩ :=
        append_cons_eq_flatMap below
      have grows : fresh (a.moves word) step path ≠ [] := by simp [moves]
      rw [sweep_cons_exhausted grows, sweep_append_exhausted] at swept
      obtain ⟨allowed', rejected, between, came, swept⟩ := swept
      rw [← firstOutcome_visit] at came
      exact .follow allowed' rejected moves came (ih _ _ inner swept)

/-- A search goes on a path that it may open when those before it were not accepted and the budget
lasts. -/
theorem opened_iff {path : Path} : Opened a word budget clock path ↔
    ∃ before after known, a.paths word budget.maxDepth = before ++ path :: after ∧
      sweep a word budget clock (budget.maxDepth - 1 + 1) before .initial = (.exhausted, known) ∧
      budget.isSpent clock (known.entered + 1) = false := opens_iff

end Swept

/-! ### What a visit hands back -/

variable (a word) in
/-- What a visit finds are paths of a kind, the accepted one among them, or what it was given: the
path it was called on, and the dead end that was known. -/
structure Finds (kind : Path → Prop) (path : Path) (progress : Progress)
    (found : Outcome × Progress) : Prop where
  accepted : ∀ q criterion, found.1 = .accepted q criterion →
    kind q ∧ accepted? a word q = some criterion
  abandoned : ∀ q, found.1 = .abandoned q → q = path ∨ kind q
  deadEnd : ∀ q reason, found.2.deadEnd = some (q, reason) →
    progress.deadEnd = some (q, reason) ∨ kind q

theorem Finds.mono {kind kind' : Path → Prop} {path : Path} {progress : Progress}
    {found : Outcome × Progress} (finds : Finds a word kind path progress found)
    (more : ∀ q, kind q → kind' q) : Finds a word kind' path progress found where
  accepted q criterion accepted := (finds.accepted q criterion accepted).imp_left (more q)
  abandoned q abandoned := (finds.abandoned q abandoned).imp_right (more q)
  deadEnd q reason dead := (finds.deadEnd q reason dead).imp_right (more q)

theorem firstOutcome_concat (visit : Step → Progress → Outcome × Progress) (before : List Step)
    (next : Step) (progress : Progress) :
    firstOutcome visit (before ++ [next]) progress =
      match firstOutcome visit before progress with
      | (.exhausted, known) => visit next known
      | found => found := by
  induction before generalizing progress with
  | nil =>
    simp only [List.nil_append, firstOutcome]
    obtain ⟨outcome, known⟩ := visit next progress
    cases outcome <;> rfl
  | cons step before ih =>
    simp only [List.cons_append, firstOutcome]
    obtain ⟨outcome, known⟩ := visit step progress
    cases outcome with
    | exhausted => exact ih known
    | accepted | abandoned => rfl

/-- Visiting steps in turn finds what each visit finds that is made. -/
theorem firstOutcome_finds {visit : Step → Progress → Outcome × Progress} {kind : Path → Prop}
    {path : Path} {progress : Progress} {steps : List Step}
    (each : ∀ before next after known, steps = before ++ next :: after →
      firstOutcome visit before progress = (.exhausted, known) →
        Finds a word kind path known (visit next known)) :
    Finds a word kind path progress (firstOutcome visit steps progress) := by
  induction steps using List.reverseRecOn with
  | nil => exact ⟨nofun, nofun, fun _ _ => Or.inl⟩
  | append_singleton before next ih =>
    have earlier : Finds a word kind path progress (firstOutcome visit before progress) := by
      apply ih
      intro start middle after known split
      exact each start middle (after ++ [next]) known (by rw [split, List.append_assoc]; rfl)
    rw [firstOutcome_concat]
    cases came : firstOutcome visit before progress with
    | mk outcome known =>
      rw [came] at earlier
      cases outcome with
      | accepted | abandoned => exact earlier
      | exhausted =>
        have last := each before next [] known rfl came
        refine ⟨last.accepted, last.abandoned, ?_⟩
        intro q reason dead
        rcases last.deadEnd q reason dead with old | new
        · exact earlier.deadEnd q reason old
        · exact Or.inr new

variable (a word budget clock) in
/-- All that a visit can do: it may not enter the step's configuration, accepts it, comes to a dead
end there, or takes the moves that lead off the path. -/
theorem visit_cases (room : Nat) (path : Path) (step : Step) (progress : Progress) :
    let found := visit a word budget clock room path step progress
    let counted := { progress with entered := progress.entered + 1 }
    let spent := budget.isSpent clock (progress.entered + 1)
    let accepts := a.accepts? word step.configuration
    let moves := fresh (a.moves word) step path
    spent = true ∧ found = (.abandoned path, counted) ∨
    spent = false ∧ (∃ criterion, accepts = some criterion ∧
      found = (.accepted (step :: path) criterion, counted)) ∨
    spent = false ∧ accepts = none ∧
      ((∃ wasCut, (moves = [] ∧ wasCut = progress.wasCut ∨
          moves ≠ [] ∧ room = 0 ∧ wasCut = true) ∧
        found = (.exhausted,
          ⟨counted.entered, some (step :: path, reasonAt a word step), wasCut⟩)) ∨
      ∃ less, room = less + 1 ∧ moves ≠ [] ∧
        found = firstOutcome (visit a word budget clock less (step :: path)) moves counted) := by
  unfold visit fresh
  dsimp only
  cases budget.isSpent clock (progress.entered + 1) with
  | true => exact Or.inl ⟨rfl, rfl⟩
  | false =>
    refine Or.inr ?_
    cases a.accepts? word step.configuration with
    | some criterion => exact Or.inl ⟨rfl, criterion, rfl, rfl⟩
    | none =>
      refine Or.inr ⟨rfl, rfl, ?_⟩
      cases (a.moves word step.configuration).filter (!onPath (step :: path) ·.configuration) with
      | nil => exact Or.inl ⟨progress.wasCut, Or.inl ⟨rfl, rfl⟩, by cases room <;> rfl⟩
      | cons next others =>
        have grows := List.cons_ne_nil next others
        cases room with
        | zero => exact Or.inl ⟨true, Or.inr ⟨grows, rfl, rfl⟩, rfl⟩
        | succ less => exact Or.inr ⟨less, rfl, grows, rfl⟩

/-- What a visit hands back it has gone on, or it was there before. -/
theorem visit_finds (room : Nat) (path : Path) (step : Step) (progress : Progress) :
    Finds a word (Opens a word budget clock room path step progress) path progress
      (visit a word budget clock room path step progress) := by
  induction room using Nat.strongRecOn generalizing path step progress with
  | ind room ih =>
    rcases visit_cases a word budget clock room path step progress with
      ⟨-, found⟩ | ⟨allowed, criterion, accepts, found⟩ |
      ⟨allowed, rejected, ⟨wasCut, -, found⟩ | ⟨less, rfl, -, found⟩⟩
    · rw [found]
      refine ⟨nofun, ?_, fun _ _ => Or.inl⟩
      rintro _ ⟨⟩
      exact Or.inl rfl
    · rw [found]
      refine ⟨?_, nofun, fun _ _ => Or.inl⟩
      rintro _ _ ⟨⟩
      exact ⟨.enter allowed, accepts⟩
    · rw [found]
      refine ⟨nofun, nofun, ?_⟩
      rintro _ _ ⟨⟩
      exact Or.inr (.enter allowed)
    · -- Each move is followed on the longer path, which the visit is on by then.
      have below : Finds a word (Opens a word budget clock (less + 1) path step progress)
          (step :: path) { progress with entered := progress.entered + 1 }
          (firstOutcome (visit a word budget clock less (step :: path))
            (fresh (a.moves word) step path)
            { progress with entered := progress.entered + 1 }) := by
        apply firstOutcome_finds
        intro before next after known moves came
        have found := ih less (Nat.lt_succ_self less) (step :: path) next known
        exact found.mono fun q opened => .follow allowed rejected moves came opened
      rw [found]
      refine ⟨below.accepted, ?_, below.deadEnd⟩
      intro q abandoned
      rcases below.abandoned q abandoned with rfl | opened
      · exact Or.inr (.enter allowed)
      · exact Or.inr opened

end Pushdown.Search

namespace Pushdown

open Search

/-- The trace of a run is a path that its search has gone on, or is empty; a run that accepts,
accepts it. -/
theorem run_trace (a : Automaton) (word : Word) (budget : Budget) (clock : Clock) :
    ∃ path, (a.run word budget clock).trace = ⟨word, path.reverse⟩ ∧
      (path = [] ∨ Opened a word budget clock path) ∧
      ∀ criterion, (a.run word budget clock).verdict = .accepted criterion →
        accepted? a word path = some criterion := by
  have finds : Finds a word (Opened a word budget clock) [] .initial (search a word budget clock) :=
    visit_finds _ _ _ _
  rw [Automaton.run]
  cases found : search a word budget clock with
  | mk outcome progress =>
    rw [found] at finds
    cases outcome with
    | accepted path criterion =>
      obtain ⟨opened, accepted⟩ := finds.accepted path criterion rfl
      refine ⟨path, rfl, Or.inr opened, ?_⟩
      rintro _ ⟨⟩
      exact accepted
    | abandoned path =>
      refine ⟨path, rfl, finds.abandoned path rfl, ?_⟩
      rintro _ ⟨⟩
    | exhausted =>
      cases dead : progress.deadEnd with
      | none =>
        refine ⟨[], by simp [Run.ofSearch, dead], Or.inl rfl, ?_⟩
        rintro _ ⟨⟩
      | some last =>
        obtain ⟨path, reason⟩ := last
        have opened := (finds.deadEnd path reason dead).resolve_left (by rintro ⟨⟩)
        refine ⟨path, by simp [Run.ofSearch, dead], Or.inr opened, ?_⟩
        rintro _ ⟨⟩

end Pushdown
