import Pushdown.Proofs.Measures
import Pushdown.Proofs.Samples.Automata

/-!
# The sample for equal runs

The automaton counts what it reads of `a` in `q0`, counts down with every `b` in `q1`, and goes on
to `q2` when only the marker is left on the stack. It decides the words of a run of `a` and a run of
`b` of the same length.
-/

namespace Pushdown

namespace Automaton.equalRuns

open Samples

variable {word : Word} {c c' : Configuration}

theorem built : equalRuns.Built (Definition.equalRuns.rules.map Rule.transition) :=
  ofDefinition_built ofDefinition_equalRuns

inductive Follows (word : Word) : Configuration → Configuration → Prop where
  | count {i : Nat} {below : Stack} (next : word[i]? = some 'a') :
    Follows word ⟨"q0", i, below⟩ ⟨"q0", i + 1, below.push ['X']⟩
  | turn {i : Nat} {below : Stack} (next : word[i]? = some 'b') :
    Follows word ⟨"q0", i, below.push ['X']⟩ ⟨"q1", i + 1, below⟩
  | pair {i : Nat} {below : Stack} (next : word[i]? = some 'b') :
    Follows word ⟨"q1", i, below.push ['X']⟩ ⟨"q1", i + 1, below⟩
  | skip {i : Nat} {below : Stack} :
    Follows word ⟨"q0", i, below.push ['Z']⟩ ⟨"q2", i, below⟩
  | finish {i : Nat} {below : Stack} :
    Follows word ⟨"q1", i, below.push ['Z']⟩ ⟨"q2", i, below⟩

theorem moves_iff : equalRuns.Moves word c c' ↔ Follows word c c' := by
  constructor
  · rw [built.moves_iff]
    simp only [Definition.equalRuns, List.mem_cons, List.not_mem_nil, or_false, exists_eq_or_imp,
      exists_eq_left, Rule.Applies, reads_some, reads_none]
    rintro (⟨i, _, below, ⟨next, rfl⟩, rfl, rfl⟩ | ⟨i, _, below, ⟨next, rfl⟩, rfl, rfl⟩ |
      ⟨i, _, below, ⟨next, rfl⟩, rfl, rfl⟩ | ⟨i, _, below, rfl, rfl, rfl⟩ |
      ⟨i, _, below, rfl, rfl, rfl⟩)
    · exact .count next
    · exact .turn next
    · exact .pair next
    · exact .skip
    · exact .finish
  · intro follows
    cases follows with
    | count next => exact built.moves_by 0 rfl _ (reads_some.mpr ⟨next, rfl⟩)
    | turn next => exact built.moves_by 1 rfl _ (reads_some.mpr ⟨next, rfl⟩)
    | pair next => exact built.moves_by 2 rfl _ (reads_some.mpr ⟨next, rfl⟩)
    | skip => exact built.moves_by 3 rfl _ (reads_none.mpr rfl)
    | finish => exact built.moves_by 4 rfl _ (reads_none.mpr rfl)

/-! ### What a run costs -/

def rank (word : Word) (c : Configuration) : Nat :=
  word.length - c.cursor + if c.state = "q2" then 0 else 1

/-- What is paid for a move that reads. Where the marker is on top in `q1`, there is none. -/
def reading (word : Word) (c : Configuration) : Nat :=
  if c.state = "q0" ∨ c.state = "q1" ∧ c.stack.top ≠ some 'Z' then word.length - c.cursor + 1 else 0

/-- What is paid for a move to `q2`. -/
def leaving (c : Configuration) : Nat :=
  if c.state ≠ "q2" ∧ c.stack.top = some 'Z' then 1 else 0

theorem measured (word : Word) : equalRuns.Measured word (rank word)
    fun c => reading word c + leaving c + 1 := by
  have forks : Forks (Definition.equalRuns.rules.map Rule.transition) := by decide
  apply forks.measured built (reading word) leaving
  · intro c c' moves
    cases moves_iff.mp moves with
    | count next | turn next | pair next =>
      obtain ⟨inside, -⟩ := List.getElem?_eq_some_iff.mp next
      simp only [rank, String.reduceEq, if_false]
      omega
    | skip | finish => simp [rank]
  · intro c c' moves
    cases moves_iff.mp moves with
    | count next =>
      obtain ⟨inside, -⟩ := List.getElem?_eq_some_iff.mp next
      simp [reading, leaving, Stack.top]
      omega
    | turn next | pair next =>
      obtain ⟨inside, -⟩ := List.getElem?_eq_some_iff.mp next
      -- What is below the `X` may be the marker, and then there is nothing more to read.
      simp [reading, leaving, Stack.top]
      split <;> omega
    | skip | finish => simp [reading, leaving, Stack.top]
  · intro c
    exact Nat.lt_succ_self _

/-! ### What is reached -/

/-- What has been read, by the state. The stack has one `X` for each `a` that is not paired. -/
structure Accounts (word : Word) (c : Configuration) : Prop where
  counting : c.state = "q0" → ∃ n, word.take c.cursor = .replicate n 'a' ∧ c.stack = counter 'X' n
  pairing : c.state = "q1" → ∃ n m, word.take c.cursor = .replicate (n + m) 'a' ++
    .replicate m 'b' ∧ c.stack = counter 'X' n
  done : c.state = "q2" → ∃ n, word.take c.cursor = .replicate n 'a' ++ .replicate n 'b'

theorem Accounts.keeps (before : Accounts word c) (follows : Follows word c c') :
    Accounts word c' := by
  cases follows with
  | count next =>
    obtain ⟨n, read, rfl⟩ := before.counting rfl
    refine ⟨fun _ => ⟨n + 1, ?_, rfl⟩, by simp, by simp⟩
    rw [take_next next, read, List.replicate_succ']
  | turn next =>
    obtain ⟨n, read, stack⟩ := before.counting rfl
    obtain ⟨-, k, rfl, below⟩ := eq_counter_of_push (by decide) stack
    refine ⟨by simp, fun _ => ⟨k, 1, ?_, below⟩, by simp⟩
    rw [take_next next, read]
    rfl
  | pair next =>
    obtain ⟨n, m, read, stack⟩ := before.pairing rfl
    obtain ⟨-, k, rfl, below⟩ := eq_counter_of_push (by decide) stack
    refine ⟨by simp, fun _ => ⟨k, m + 1, ?_, below⟩, by simp⟩
    rw [take_next next, read, List.replicate_succ', Nat.succ_add_eq_add_succ, List.append_assoc]
  | skip =>
    obtain ⟨n, read, stack⟩ := before.counting rfl
    obtain rfl := eq_zero_of_push_marker (by decide) stack
    exact ⟨by simp, by simp, fun _ => ⟨0, read⟩⟩
  | finish =>
    obtain ⟨n, m, read, stack⟩ := before.pairing rfl
    obtain rfl := eq_zero_of_push_marker (by decide) stack
    exact ⟨by simp, by simp, fun _ => ⟨m, by simpa using read⟩⟩

theorem accounts (reached : equalRuns.Reaches word c) : Accounts word c := by
  apply reached.keeps
  · refine ⟨fun _ => ⟨0, rfl, rfl⟩, ?_, ?_⟩
    all_goals simp [initialConfiguration, equalRuns]
  · intro c c' before moves
    exact before.keeps (moves_iff.mp moves)

/-! ### The language -/

theorem reaches_counting {n i : Nat} (inside : i ≤ n) :
    equalRuns.Reaches (.replicate n 'a' ++ .replicate n 'b') ⟨"q0", i, counter 'X' i⟩ := by
  induction i with
  | zero => exact .start
  | succ i ih =>
    apply (ih (Nat.le_of_lt inside)).move
    apply moves_iff.mpr
    apply Follows.count
    rw [List.getElem?_append_left (by simpa), List.getElem?_replicate_of_lt inside]

theorem reaches_pairing {n k m : Nat} (paired : k + (m + 1) = n) :
    equalRuns.Reaches (.replicate n 'a' ++ .replicate n 'b') ⟨"q1", n + (m + 1), counter 'X' k⟩ := by
  have next : ∀ i < n, (List.replicate n 'a' ++ List.replicate n 'b')[n + i]? = some 'b' := by
    intro i inside
    rw [List.getElem?_append_right (by simp), List.getElem?_replicate_of_lt (by simpa)]
  induction m generalizing k with
  | zero =>
    have counted := reaches_counting (Nat.le_refl n)
    subst paired
    exact counted.move (moves_iff.mpr (.turn (next 0 (by omega))))
  | succ m ih =>
    have before : equalRuns.Reaches _ ⟨"q1", n + (m + 1), counter 'X' (k + 1)⟩ := ih (by omega)
    exact before.move (moves_iff.mpr (.pair (next (m + 1) (by omega))))

theorem reaches_done (n : Nat) :
    equalRuns.Reaches (.replicate n 'a' ++ .replicate n 'b') ⟨"q2", n + n, .empty⟩ := by
  cases n with
  | zero => exact Reaches.start.move (moves_iff.mpr .skip)
  | succ n => exact (reaches_pairing (Nat.zero_add _)).move (moves_iff.mpr .finish)

theorem mem_language : word ∈ equalRuns.language ↔
    ∃ n, word = .replicate n 'a' ++ .replicate n 'b' := by
  rw [Automaton.mem_language]
  constructor
  · rintro ⟨c, criterion, reached, finished, rfl, final⟩
    obtain ⟨n, read⟩ := (accounts reached).done (List.mem_singleton.mp final)
    rw [finished, List.take_length] at read
    exact ⟨n, read⟩
  · rintro ⟨n, rfl⟩
    exact ⟨_, .finalState, reaches_done n, by simp, rfl, List.mem_singleton.mpr rfl⟩

end Automaton.equalRuns

/-- The sample decides the words of a run of `a` and a run of `b` of one length, in any budget that
allows paths of two configurations more than there are symbols, and one step more than that. -/
theorem sample_decides_equal_runs :
    ∃ a, Samples.automaton "a^n b^n" = .ok a ∧
      ∀ (word : Word) (budget : Budget) (clock : Clock), budget.timeout = none →
        word.length + 2 ≤ budget.maxDepth → word.length + 3 ≤ budget.maxSteps →
          ((∃ criterion, (a.run word budget clock).verdict = .accepted criterion) ↔
            ∃ n, word = .replicate n 'a' ++ .replicate n 'b') ∧
          (a.run word budget clock).verdict ≠ .rejected .outOfBudget := by
  refine ⟨.equalRuns, Samples.automaton_equalRuns, ?_⟩
  intro word budget clock untimed deep enough
  rw [← Automaton.equalRuns.mem_language, and_comm]
  apply (Automaton.equalRuns.measured word).conclusive Automaton.equalRuns.built untimed
  · show word.length + 1 < budget.maxDepth
    omega
  · show word.length + 1 + 1 + 1 ≤ budget.maxSteps
    omega

theorem sample_decides_equal_runs_tight :
    ∃ a, Samples.automaton "a^n b^n" = .ok a ∧
      (∃ criterion, (a.run ['a', 'a', 'b', 'b'] ⟨7, 6, none⟩ .still).verdict =
        .accepted criterion) ∧
      ¬ ∃ criterion, (a.run ['a', 'b', 'a'] ⟨6, 5, none⟩ .still).verdict = .accepted criterion := by
  obtain ⟨a, built, decides⟩ := sample_decides_equal_runs
  refine ⟨a, built, ?_, ?_⟩
  · exact (decides _ _ _ rfl (by decide) (by decide)).1.mpr ⟨2, rfl⟩
  · rw [(decides _ _ _ rfl (by decide) (by decide)).1]
    rintro ⟨n, same⟩
    have odd := congrArg List.length same
    simp at odd
    omega

end Pushdown
