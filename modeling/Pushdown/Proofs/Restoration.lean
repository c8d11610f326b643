import Mathlib.Data.List.Chain
import Pushdown.Proofs.Backtracking

/-!
# What a search leaves behind

A call of the search that finds nothing leaves the path and the set of open configurations as they
were; otherwise the path still goes on from where the call began. `search_backtracks` says so of any
call that is made where the set holds what is on the path.
-/

namespace Pushdown

open Search

variable {a : Automaton} {word : Word} {budget : Budget} {clock : Clock}

/-! ### Legal continuations -/

theorem Table.mem_candidates {table : Table} {state : State} {reads top : Option Symbol}
    {t : Transition} (member : t ∈ table.candidates state reads top) :
    t.target ∈ table.get t.key ∧ t.key.state = state ∧ t.key.reads = reads := by
  have withKey : ∀ {key}, t ∈ table.withKey key → t.target ∈ table.get t.key ∧ t.key = key := by
    intro key member
    obtain ⟨target, registered, rfl⟩ := List.mem_map.mp member
    exact ⟨registered, rfl⟩
  unfold candidates at member
  rcases List.mem_append.mp member with member | member
  · cases top with
    | none => cases member
    | some x =>
      obtain ⟨registered, key⟩ := withKey member
      exact ⟨registered, by rw [key], by rw [key]⟩
  · obtain ⟨registered, key⟩ := withKey member
    exact ⟨registered, by rw [key], by rw [key]⟩

/-- The steps that are tried from a configuration are legal moves, of whatever automaton. -/
theorem Automaton.move_of_mem_moves {c : Configuration} {step : Step}
    (member : step ∈ a.moves word c) :
    ∃ t, step.transition = some t ∧ Move a word c t step.configuration := by
  obtain ⟨t, tried, fired⟩ := List.mem_filterMap.mp member
  obtain ⟨c', fires, rfl⟩ := Option.map_eq_some_iff.mp fired
  obtain ⟨state, cursor, replaces⟩ := Transition.fire?_eq_some.mp fires
  have among : t.target ∈ a.table.get t.key ∧ t.key.state = c.state ∧
      (t.key.reads = none ∨ t.key.reads = word[c.cursor]?) := by
    rw [candidates, List.mem_append] at tried
    rcases tried with tried | tried
    · split at tried
      · next symbol next =>
        split at tried
        · obtain ⟨registered, leaves, reads⟩ := Table.mem_candidates tried
          exact ⟨registered, leaves, Or.inr (reads.trans next.symm)⟩
        · cases tried
      · cases tried
    · obtain ⟨registered, leaves, reads⟩ := Table.mem_candidates tried
      exact ⟨registered, leaves, Or.inl reads⟩
  obtain ⟨registered, leaves, fits⟩ := among
  exact ⟨t, rfl, registered, leaves, reads_iff.mpr ⟨fits, cursor⟩, state, replaces⟩

def Step.LeadsTo (a : Automaton) (word : Word) (step next : Step) : Prop :=
  ∃ t, next.transition = some t ∧ Move a word step.configuration t next.configuration

namespace Search

variable {room : Nat} {path q : Path} {step : Step} {progress known : Progress}

/-- A path goes on from another one by legal moves, beginning with a step. -/
def GoesOn (a : Automaton) (word : Word) (path : Path) (step : Step) (q : Path) : Prop :=
  ∃ suffix, q.reverse = path.reverse ++ suffix ∧ suffix.head? = some step ∧
    suffix.getLast? = q.head? ∧ suffix.IsChain (Step.LeadsTo a word)

theorem goesOn_of_mem_preorder (member : q ∈ preorder (a.moves word) room step path) :
    GoesOn a word path step q := by
  apply preorder_forall (P := GoesOn a word path step) _ _ q member
  · rintro last before next ⟨suffix, whole, begins, ends, legal⟩ among
    refine ⟨suffix ++ [next], ?_, ?_, ?_, ?_⟩
    · rw [List.reverse_cons, whole, List.append_assoc]
    · rw [List.head?_append, begins]
      rfl
    · simp
    · refine List.isChain_append.mpr ⟨legal, List.isChain_singleton _, ?_⟩
      intro x ends' y first
      obtain rfl : last = x := Option.some.inj (ends.symm.trans ends')
      obtain rfl : next = y := Option.some.inj first
      exact Automaton.move_of_mem_moves (List.mem_of_mem_filter among)
  · exact ⟨[step], by simp, rfl, rfl, List.isChain_singleton _⟩

theorem GoesOn.prefix (goesOn : GoesOn a word path step q) :
    path.reverse ++ [step] <+: q.reverse := by
  obtain ⟨suffix, whole, begins, -, -⟩ := goesOn
  obtain ⟨rest, rfl⟩ := List.head?_eq_some_iff.mp begins
  exact ⟨rest, by rw [whole, List.append_assoc]; rfl⟩

/-! ### How a visit ends -/

theorem goesOn_of_opens (opens : Opens a word budget clock room path step progress q) :
    GoesOn a word path step q := by
  obtain ⟨before, after, -, split, -⟩ := opens_iff.mp opens
  exact goesOn_of_mem_preorder (split ▸ List.mem_append_right _ List.mem_cons_self)

theorem accepted?_eq_some_iff {criterion : Criterion} : accepted? a word q = some criterion ↔
    ∃ last, q.head? = some last ∧ last.configuration.cursor = word.length ∧
      a.evaluate last.configuration = some criterion := by
  cases q with
  | nil => simp [accepted?]
  | cons last before => simp [accepted?, Automaton.accepts?, Option.ite_none_right_eq_some]

theorem visit_accepted {criterion : Criterion}
    (found : visit a word budget clock room path step progress = (.accepted q criterion, known)) :
    GoesOn a word path step q ∧ accepted? a word q = some criterion := by
  have finds : Finds a word (Opens a word budget clock room path step progress) path progress _ :=
    visit_finds room path step progress
  rw [found] at finds
  obtain ⟨opens, accepted⟩ := finds.accepted q criterion rfl
  exact ⟨goesOn_of_opens opens, accepted⟩

/-- A visit that finds nothing has come to a dead end of its own. -/
theorem visit_exhausted
    (found : visit a word budget clock room path step progress = (.exhausted, known)) :
    ∃ q reason, known.deadEnd = some (q, reason) ∧ GoesOn a word path step q := by
  rw [visit_eq_sweep] at found
  obtain ⟨-, rfl⟩ := sweep_exhausted found
  obtain ⟨last, q, listed, ends⟩ : ∃ last q,
      (preorder (a.moves word) room step path).getLast? = some (last :: q) ∧
        (fresh (a.moves word) last q = [] ∨ room + path.length ≤ q.length) := getLast?_preorder
  have dead : (passedAll a word (room + path.length + 1) progress
      (preorder (a.moves word) room step path)).deadEnd = some (last :: q, _) :=
    passedAll_deadEnd listed (ends.imp_right Nat.succ_le_succ)
  exact ⟨_, _, dead, goesOn_of_mem_preorder (List.mem_of_getLast? listed)⟩

theorem sweep_abandoned {limit : Nat} {paths : List Path}
    (swept : sweep a word budget clock limit paths progress = (.abandoned q, known)) :
    budget.isSpent clock known.entered = true := by
  induction paths generalizing progress with
  | nil => cases swept
  | cons path rest ih =>
    rw [sweep] at swept
    dsimp only at swept
    split at swept
    · next spent =>
      obtain ⟨-, rfl⟩ := Prod.mk.inj swept
      exact spent
    split at swept
    · cases swept
    · exact ih swept

theorem visit_abandoned
    (found : visit a word budget clock room path step progress = (.abandoned q, known)) :
    (q = path ∨ GoesOn a word path step q) ∧ budget.isSpent clock known.entered = true := by
  have finds : Finds a word (Opens a word budget clock room path step progress) path progress _ :=
    visit_finds room path step progress
  rw [found] at finds
  refine ⟨(finds.abandoned q rfl).imp_right goesOn_of_opens, ?_⟩
  rw [visit_eq_sweep] at found
  exact sweep_abandoned found

end Search

/-! ### The contract of a call -/

variable (a word budget clock) in
/-- How a call of the search may end that was made with a searcher, from a step: with nothing, after
which the path and the set are as they were and a dead end is known that lies beyond the step; with
an accepted path that goes on from where the call began; or by giving up on such a path. -/
inductive Searcher.Backtracks (s : Searcher) (step : Step) :
    EStateM.Result Exceeded Searcher (Option Criterion) → Prop where
  | nothing {s' : Searcher} {path : Array Step} {reason : RejectReason} :
    s'.path = s.path → (∀ c, c ∈ s'.active ↔ c ∈ s.active) →
      s'.deadEnd = some (path, reason) → s.path.toList ++ [step] <+: path.toList →
      Backtracks s step (.ok none s')
  | accepted {s' : Searcher} {criterion : Criterion} {suffix : List Step} {last : Step} :
    s'.path.toList = s.path.toList ++ suffix → suffix.head? = some step →
      suffix.IsChain (Step.LeadsTo a word) → s'.Consistent → suffix.getLast? = some last →
      last.configuration.cursor = word.length → a.evaluate last.configuration = some criterion →
      Backtracks s step (.ok (some criterion) s')
  | gaveUp {s' : Searcher} {exceeded : Exceeded} :
    s.path.toList <+: s'.path.toList →
      (budget.maxSteps < s'.entered ∨ ∃ limit, budget.timeout = some limit ∧
        limit.nanoseconds ≤ (clock s'.entered).nanoseconds) →
      Backtracks s step (.error exceeded s')

namespace Searcher

variable {s s' : Searcher} {step : Step} {room : Nat}

theorem reverse_openPath : s.openPath.reverse = s.path.toList := List.reverse_reverse _

theorem Consistent.active_iff (consistent : s.Consistent) (consistent' : s'.Consistent)
    (path : s'.path = s.path) (c : Configuration) : c ∈ s'.active ↔ c ∈ s.active := by
  rw [consistent'.active, consistent.active, configurations, configurations, path]

theorem Comes.gaveUp {exceeded : Exceeded} (comes : Comes s (.error exceeded s')
      (visit a word budget clock room s.openPath step s.progress)) :
    Backtracks a word budget clock s step (.error exceeded s') := by
  obtain ⟨open', spent⟩ := visit_abandoned comes.shows.symm
  rw [Budget.isSpent, Bool.or_eq_true, decide_eq_true_eq, Option.any_eq_true] at spent
  refine .gaveUp ?_ (spent.imp_right ?_)
  · rw [← reverse_openPath, ← reverse_openPath]
    rcases open' with same | goesOn
    · rw [same]
    · exact (List.prefix_append _ _).trans goesOn.prefix
  · rintro ⟨limit, timeout, late⟩
    exact ⟨limit, timeout, of_decide_eq_true late⟩

theorem Comes.accepted {criterion : Criterion} (comes : Comes s (.ok (some criterion) s')
      (visit a word budget clock room s.openPath step s.progress)) :
    Backtracks a word budget clock s step (.ok (some criterion) s') := by
  obtain ⟨⟨suffix, whole, begins, ends, legal⟩, accepted⟩ := visit_accepted comes.shows.symm
  obtain ⟨last, final, finished, judged⟩ := accepted?_eq_some_iff.mp accepted
  rw [reverse_openPath, reverse_openPath] at whole
  exact .accepted whole begins legal comes.consistent (ends.trans final) finished judged

theorem Comes.nothing (consistent : s.Consistent) (comes : Comes s (.ok none s')
      (visit a word budget clock room s.openPath step s.progress)) :
    Backtracks a word budget clock s step (.ok none s') := by
  obtain ⟨q, reason, dead, goesOn⟩ := visit_exhausted comes.shows.symm
  obtain ⟨⟨path', reason'⟩, known, same⟩ := Option.map_eq_some_iff.mp dead
  obtain ⟨rfl, rfl⟩ := Prod.mk.inj same
  have path : s'.path = s.path := comes.restored s' rfl
  refine .nothing path (consistent.active_iff comes.consistent path) known ?_
  have extends' := goesOn.prefix
  rwa [reverse_openPath, List.reverse_reverse] at extends'

theorem Comes.backtracks {result : EStateM.Result Exceeded Searcher (Option Criterion)}
    (consistent : s.Consistent)
    (comes : Comes s result (visit a word budget clock room s.openPath step s.progress)) :
    Backtracks a word budget clock s step result := by
  cases result with
  | error exceeded s' => exact comes.gaveUp
  | ok found s' =>
    cases found with
    | some criterion => exact comes.accepted
    | none => exact comes.nothing consistent

end Searcher

/-- A call of the search, from a configuration that is not on the path, where the path has no
configuration twice and the set holds those on it. If it finds nothing, it leaves the path and the
set as they were, with a dead end that lies beyond; if it accepts, the path goes on by legal moves
to what it accepts; and if it gives up, the budget is spent. So whoever runs a search that finds
nothing need not think of what to do without a dead end. -/
theorem search_backtracks (a : Automaton) (word : Word) (budget : Budget) (clock : Clock) :
    (∀ (s : Searcher) (step : Step), s.Consistent → step.configuration ∉ s.active →
      Searcher.Backtracks a word budget clock s step
        ((Searcher.search a word budget clock step).run s)) ∧
    ∀ fallback, Searcher.conclude word fallback ((Searcher.search a word budget clock
      ⟨a.initialConfiguration, none⟩).run .initial) = a.run word budget clock := by
  have backtracks : ∀ (s : Searcher) (step : Step), s.Consistent → step.configuration ∉ s.active →
      Searcher.Backtracks a word budget clock s step
        ((Searcher.search a word budget clock step).run s) := by
    intro s step consistent new
    exact (Searcher.search_comes a word budget clock consistent new).backtracks consistent
  refine ⟨backtracks, ?_⟩
  intro fallback
  rw [← Searcher.run_eq, Searcher.run]
  have initial := backtracks .initial ⟨a.initialConfiguration, none⟩ Searcher.consistent_initial
    (by simp [Searcher.initial])
  generalize (Searcher.search a word budget clock ⟨a.initialConfiguration, none⟩).run .initial =
    result at initial ⊢
  cases initial with
  | nothing _ _ known _ => simp only [Searcher.conclude, known, Option.getD_some]
  | accepted => rfl
  | gaveUp => rfl

/-- With `p` on the path, `Automaton.roundabout` finds nothing from `r`, which only leads back
there. That `r` was entered is undone. -/
theorem search_backtracks_roundabout :
    let s := Searcher.initial.enter ⟨⟨"p", 0, .empty⟩, none⟩
    let step : Step := ⟨⟨"r", 0, .ofWord ['X']⟩, some ⟨⟨"p", none, none⟩, ⟨"r", ['X']⟩⟩⟩
    s.Consistent ∧ step.configuration ∉ s.active ∧
    ∃ s', (Searcher.search .roundabout ['b'] .standard .still step).run s = .ok none s' ∧
      s'.path = s.path ∧ (∀ c, c ∈ s'.active ↔ c ∈ s.active) ∧
      ∃ path reason, s'.deadEnd = some (path, reason) ∧
        s.path.toList ++ [step] <+: path.toList := by
  intro s step
  have consistent : s.Consistent := Searcher.consistent_initial.enter (by simp [Searcher.initial])
  have new : step.configuration ∉ s.active := by
    rw [consistent.active]
    decide
  have shows := (Searcher.search_comes .roundabout ['b'] .standard .still consistent new).shows
  have nothing : (Run.ofSearch ['b'] (visit .roundabout ['b'] .standard .still
      (Budget.standard.maxDepth - (s.path.size + 1)) s.openPath step s.progress)).verdict =
        .rejected (.circling 0) := by decide +kernel
  have backtracks := (search_backtracks .roundabout ['b'] .standard .still).1 s step consistent new
  refine ⟨consistent, new, ?_⟩
  generalize (Searcher.search .roundabout ['b'] .standard .still step).run s = result
    at shows backtracks ⊢
  cases backtracks with
  | nothing path active known extends' => exact ⟨_, rfl, path, active, _, _, known, extends'⟩
  | accepted =>
    rw [← shows] at nothing
    cases nothing
  | gaveUp =>
    rw [← shows] at nothing
    cases nothing

end Pushdown
