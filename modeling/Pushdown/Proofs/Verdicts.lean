import Pushdown.Proofs.Paths

/-!
# Verdicts and languages

A run that accepts a word shows a computation that accepts it. A run that rejects a word for another
reason than its budget has opened every path without detours, and none of them is accepted; since
detours can be taken out of a computation, none accepts the word.
-/

namespace Pushdown

open Search

variable {a : Automaton} {word : Word} {registered : List Transition} {budget : Budget}
  {clock : Clock}

theorem accepted?_eq_some {path : Path} {criterion : Criterion} {c : Configuration}
    (h : Computation a word path.reverse c) (accepted : accepted? a word path = some criterion) :
    Accepting a word c criterion := by
  cases path with
  | nil => cases accepted
  | cons step path =>
    rw [h.configuration_eq]
    exact accepting_of_accepts? accepted

theorem accepted?_ne_none {path : Path} {criterion : Criterion} {c : Configuration}
    (h : Computation a word path.reverse c) (accepting : Accepting a word c criterion) :
    accepted? a word path ≠ none := by
  cases path with
  | nil => exact absurd rfl h.ne_nil
  | cons step path =>
    rw [h.configuration_eq] at accepting
    exact accepts?_ne_none accepting

/-- If no path of a run is accepted and none was cut, the word is not in the language. -/
theorem Automaton.Built.not_mem_language (built : a.Built registered) {maxDepth : Nat}
    (rejected : ∀ path ∈ a.paths word maxDepth, accepted? a word path = none)
    (uncut : ¬ Cut a word (maxDepth - 1 + 1) (a.paths word maxDepth)) : word ∉ a.language := by
  rintro ⟨steps, c, criterion, h, accepting⟩
  obtain ⟨simple, h, distinct, -⟩ := h.exists_simple
  rw [← List.reverse_reverse simple] at h
  rw [← List.nodup_reverse, ← List.map_reverse] at distinct
  rcases built.mem_paths_or_cut maxDepth h distinct with member | ⟨-, cut⟩
  · exact accepted?_ne_none h accepting (rejected _ member)
  · exact uncut cut

/-- A run is right about a word: if it accepts, its trace is a computation that ends where the
criterion it names holds, and if it rejects for another reason than its budget, then no computation
of any length accepts the word. -/
theorem run_decides_language (built : a.Built registered) (word : Word) (budget : Budget)
    (clock : Clock) (untimed : budget.timeout = none) :
    (∀ criterion, (a.run word budget clock).verdict = .accepted criterion →
      word ∈ a.language ∧ (a.run word budget clock).trace.word = word ∧
        ∃ c, Computation a word (a.run word budget clock).trace.steps c ∧
          Accepting a word c criterion) ∧
    ∀ reason, (a.run word budget clock).verdict = .rejected reason → reason ≠ .outOfBudget →
      word ∉ a.language := by
  have ending : Ending a word budget (a.run word budget clock) := run_ending untimed
  generalize a.run word budget clock = run at ending
  cases ending with
  | @accepted before after path criterion split rejected accepted cheap =>
    have member : path ∈ a.paths word budget.maxDepth := by rw [split]; simp
    obtain ⟨⟨c, h⟩, -⟩ := built.computation_of_mem_paths member
    have accepting := accepted?_eq_some h accepted
    refine ⟨?_, nofun⟩
    rintro _ ⟨⟩
    exact ⟨⟨_, c, criterion, h, accepting⟩, rfl, c, h, accepting⟩
  | exhausted rejected cheap last why =>
    refine ⟨nofun, ?_⟩
    rintro _ ⟨⟩ conclusive
    rcases why with ⟨-, spent⟩ | ⟨uncut, -⟩
    · exact absurd spent conclusive
    · exact built.not_mem_language rejected uncut
  | abandoned =>
    refine ⟨nofun, ?_⟩
    rintro _ ⟨⟩ conclusive
    exact absurd rfl conclusive

/-! ### A definition with detours -/

/-- Before it reads `a`, it may go in a circle through `r`, pushing and popping on its way. -/
def Definition.roundabout : Definition where
  name := "Roundabout"
  states := ["p", "r", "q"]
  inputAlphabet := ['a']
  stackAlphabet := ['X']
  initialState := "p"
  finalStates := ["q"]
  acceptance := .finalState
  bottom := none
  rules := [⟨"p", none, none, "r", ['X']⟩, ⟨"r", none, some 'X', "p", []⟩,
    ⟨"p", some 'a', none, "q", []⟩]

def Automaton.roundabout : Automaton where
  name := "Roundabout"
  states := ["p", "r", "q"]
  inputAlphabet := ['a']
  initialState := "p"
  finalStates := ["q"]
  acceptance := .finalState
  bottom := none
  table := ⟨[(⟨"p", none, none⟩, [⟨"r", ['X']⟩]), (⟨"r", none, some 'X'⟩, [⟨"p", []⟩]),
    (⟨"p", some 'a', none⟩, [⟨"q", []⟩])]⟩

theorem Automaton.roundabout_built :
    roundabout.Built (Definition.roundabout.rules.map Rule.transition) := ofDefinition_built rfl

theorem run_decides_language_roundabout :
    (Automaton.roundabout.run ['a'] .standard .still).verdict = .accepted .finalState ∧
    ['a'] ∈ Automaton.roundabout.language ∧
    (Automaton.roundabout.run ['a', 'a'] .standard .still).verdict = .rejected (.circling 0) ∧
    ['a', 'a'] ∉ Automaton.roundabout.language := by
  have accepted : (Automaton.roundabout.run ['a'] .standard .still).verdict =
      .accepted .finalState := by decide +kernel
  have rejected : (Automaton.roundabout.run ['a', 'a'] .standard .still).verdict =
      .rejected (.circling 0) := by decide +kernel
  have built := Automaton.roundabout_built
  obtain ⟨right, -⟩ := run_decides_language built ['a'] .standard .still rfl
  obtain ⟨-, wrong⟩ := run_decides_language built ['a', 'a'] .standard .still rfl
  exact ⟨accepted, (right _ accepted).1, rejected, wrong _ rejected nofun⟩

end Pushdown
