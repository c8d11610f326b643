import Pushdown.Proofs.Measures
import Pushdown.Proofs.Samples.Automata

/-!
# Deterministic automata

Where a table never has more than one transition to try, a search has one path to follow. It enters
each configuration of that path once and comes to its end, or is stopped in front of the next one.
-/

namespace Pushdown

open Search

variable {a : Automaton} {word : Word} {registered : List Transition} {budget : Budget}
  {clock : Clock} {run : Run}

/-- Whatever the next symbol and the topmost one are, or if there is none, at most one transition
is found. -/
def Table.Deterministic (table : Table) : Prop :=
  ∀ state next top, (table.lookup state next top).length ≤ 1

/-- A table is deterministic if no configuration fits two of the transitions registered in it. -/
theorem Table.deterministic_ofTransitions
    (apart : registered.Pairwise fun t t' => t.key.Apart t'.key) :
    (ofTransitions registered).Deterministic := by
  intro state next top
  rw [(lookup_ofTransitions_perm registered state next top).length_eq]
  apply length_le_one_of_apart (apart.filter _)
  intro t member
  exact of_decide_eq_true (List.mem_filter.mp member).2

theorem Table.Deterministic.length_moves_le (deterministic : a.table.Deterministic)
    (built : a.Built registered) (c : Configuration) : (a.moves word c).length ≤ 1 :=
  calc (a.moves word c).length ≤ (a.candidates word c).length := List.length_filterMap_le _ _
    _ ≤ 1 := by
      rw [built.candidates_eq_lookup]
      exact deterministic _ _ _

/-! ### One path -/

/-- Where there is at most one move, each path is longer by one than the one before it in the
preorder. -/
theorem Search.length_of_preorder {moves : Configuration → List Step}
    (single : ∀ c, (moves c).length ≤ 1) {room : Nat} {step : Step} {path q : Path}
    {before after : List Path} (split : preorder moves room step path = before ++ q :: after) :
    q.length = path.length + before.length + 1 := by
  induction room generalizing step path before with
  | zero =>
    obtain ⟨rfl, rfl, -⟩ : before = [] ∧ q = step :: path ∧ after = [] := by
      simpa [preorder, List.singleton_eq_append_iff] using split
    simp
  | succ room ih =>
    cases before with
    | nil =>
      obtain ⟨rfl, -⟩ := List.cons.inj split
      simp
    | cons p before =>
      obtain ⟨-, below⟩ := List.cons.inj split
      have few : (fresh moves step path).length ≤ 1 :=
        (List.length_filter_le _ _).trans (single step.configuration)
      cases onward : fresh moves step path with
      | nil => simp [onward] at below
      | cons next others =>
        cases others with
        | nil =>
          rw [onward, List.flatMap_singleton] at below
          rw [ih below, List.length_cons, List.length_cons]
          omega
        | cons => simp [onward] at few

/-- A run along one path counts the configurations of its trace, and one more if it is stopped in
front of that. -/
theorem Ending.steps_of_deterministic (ending : Ending a word budget run)
    (deterministic : a.table.Deterministic) (built : a.Built registered) :
    run.trace.length ≤ max 1 budget.maxDepth ∧
      (run.steps = run.trace.length ∧ run.steps ≤ budget.maxSteps ∨
        run.steps = run.trace.length + 1 ∧ run.trace.length = budget.maxSteps ∧
          budget.maxSteps < max 1 budget.maxDepth) := by
  have position {before after : List Path} {path : Path}
      (split : a.paths word budget.maxDepth = before ++ path :: after) :
      path.length = before.length + 1 ∧ path.length ≤ max 1 budget.maxDepth := by
    have length : path.length = [].length + before.length + 1 :=
      length_of_preorder (deterministic.length_moves_le built) split
    rw [List.length_nil, Nat.zero_add] at length
    have member : path ∈ a.paths word budget.maxDepth := by simp [split]
    exact ⟨length, (built.mem_paths.mp member).2.2⟩
  cases ending with
  | @accepted before after path criterion split rejected accepted cheap =>
    obtain ⟨length, short⟩ := position split
    rw [← List.length_reverse] at length short
    exact ⟨short, Or.inl ⟨length.symm, cheap⟩⟩
  | @exhausted step path reason rejected cheap last why =>
    obtain ⟨before, split⟩ := List.getLast?_eq_some_iff.mp last
    obtain ⟨length, short⟩ := position split
    rw [← List.length_reverse] at length short
    have whole : (a.paths word budget.maxDepth).length = (step :: path).reverse.length := by
      rw [length, split, List.length_append, List.length_singleton]
    exact ⟨short, Or.inl ⟨whole, cheap⟩⟩
  | @abandoned before after path split rejected spent =>
    obtain ⟨length, short⟩ := position split
    have opened : path.tail.reverse.length = budget.maxSteps := by simp [length, spent]
    exact ⟨opened.le.trans (by omega), Or.inr ⟨congrArg (· + 1) opened.symm, opened, by omega⟩⟩

/-- An automaton with a deterministic table never backtracks: the configurations that a run counts
are those of its trace, unless the limit on steps stops it, which is in front of one more. Since a
trace is no longer than a path may be, a limit on steps that is as large is never reached. -/
theorem run_of_deterministic (built : a.Built registered) (deterministic : a.table.Deterministic)
    (word : Word) (budget : Budget) (clock : Clock) (untimed : budget.timeout = none) :
    let run := a.run word budget clock
    let depth := max 1 budget.maxDepth
    (run.steps ≤ budget.maxSteps → run.steps = run.trace.length) ∧
    (Abandons a word budget clock ↔ budget.maxSteps < run.steps) ∧
    (Abandons a word budget clock → run.steps = run.trace.length + 1) ∧
    run.steps ≤ depth + 1 ∧
    (depth ≤ budget.maxSteps → ¬ Abandons a word budget clock) := by
  intro run depth
  have ending : Ending a word budget run := run_ending untimed
  obtain ⟨short, steps⟩ := ending.steps_of_deterministic deterministic built
  have stopped : Abandons a word budget clock ↔ run.steps = budget.maxSteps + 1 :=
    abandons_iff untimed
  rw [stopped]
  omega

/-- On `(()`, the automaton for balanced parentheses meets four configurations, which is also how
long its paths may be here; with three steps it is stopped in front of the last of them. -/
theorem run_of_deterministic_balancedParentheses :
    let a := Automaton.balancedParentheses
    let word := ['(', '(', ')']
    (a.run word ⟨4, 4, none⟩ .still).trace.length = 4 ∧
    (a.run word ⟨4, 4, none⟩ .still).steps = 4 ∧ ¬ Abandons a word ⟨4, 4, none⟩ .still ∧
    Abandons a word ⟨3, 4, none⟩ .still ∧
    (a.run word ⟨3, 4, none⟩ .still).steps = (a.run word ⟨3, 4, none⟩ .still).trace.length + 1 := by
  intro a word
  have built := Automaton.ofDefinition_built Automaton.ofDefinition_balancedParentheses
  have deterministic : a.table.Deterministic := by
    rw [built.table_eq]
    exact Table.deterministic_ofTransitions (by decide)
  obtain ⟨counts, -, -, -, unstopped⟩ :=
    run_of_deterministic built deterministic word ⟨4, 4, none⟩ .still rfl
  obtain ⟨-, stops, oneMore, -, -⟩ :=
    run_of_deterministic built deterministic word ⟨3, 4, none⟩ .still rfl
  have whole : (a.run word ⟨4, 4, none⟩ .still).steps = 4 := by decide +kernel
  have stopped : Abandons a word ⟨3, 4, none⟩ .still := stops.mpr (by decide +kernel)
  exact ⟨(counts whole.le).symm.trans whole, whole, unstopped (Nat.le_refl 4), stopped,
    oneMore stopped⟩

end Pushdown
