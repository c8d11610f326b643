import Pushdown.Proofs.Measures
import Pushdown.Proofs.Samples.Automata

/-!
# The sample for equal counts

In `q0` the stack shows which letter is ahead and by how much, and where neither is, the automaton
may stop in `qf`. It decides the words of as many `a` as `b`, in whatever order they come. The
marker is never taken away for good, so that although an empty stack would do, no run ends on one.
-/

namespace Pushdown

namespace Automaton.equalCounts

open Samples

variable {word : Word} {c c' : Configuration}

def letter : Bool → Symbol
  | true => 'a'
  | false => 'b'

/-- What stands on the stack for a letter that is ahead. -/
def mark : Bool → Symbol
  | true => 'A'
  | false => 'B'

theorem mark_ne (l : Bool) : mark l ≠ 'Z' := by cases l <;> decide

theorem mark_injective : Function.Injective mark := Bool.injective_iff.mpr (by decide)

theorem built : equalCounts.Built (Definition.equalCounts.rules.map Rule.transition) :=
  ofDefinition_built ofDefinition_equalCounts

/-- What the rules do. Those for one letter are those for the other with the marks exchanged. -/
inductive Follows (word : Word) : Configuration → Configuration → Prop where
  | lead {i : Nat} {below : Stack} {top : Symbol} (l : Bool) (next : word[i]? = some (letter l))
    (free : top = 'Z' ∨ top = mark l) :
    Follows word ⟨"q0", i, below.push [top]⟩ ⟨"q0", i + 1, below.push [top, mark l]⟩
  | level {i : Nat} {below : Stack} (l : Bool) (next : word[i]? = some (letter l)) :
    Follows word ⟨"q0", i, below.push [mark !l]⟩ ⟨"q0", i + 1, below⟩
  | leave {i : Nat} {below : Stack} :
    Follows word ⟨"q0", i, below.push ['Z']⟩ ⟨"qf", i, below.push ['Z']⟩

theorem moves_iff : equalCounts.Moves word c c' ↔ Follows word c c' := by
  constructor
  · rw [built.moves_iff]
    simp only [Definition.equalCounts, List.mem_cons, List.not_mem_nil, or_false, exists_eq_or_imp,
      exists_eq_left, Rule.Applies, reads_some, reads_none]
    rintro (⟨i, _, below, ⟨next, rfl⟩, rfl, rfl⟩ | ⟨i, _, below, ⟨next, rfl⟩, rfl, rfl⟩ |
      ⟨i, _, below, ⟨next, rfl⟩, rfl, rfl⟩ | ⟨i, _, below, ⟨next, rfl⟩, rfl, rfl⟩ |
      ⟨i, _, below, ⟨next, rfl⟩, rfl, rfl⟩ | ⟨i, _, below, ⟨next, rfl⟩, rfl, rfl⟩ |
      ⟨i, _, below, rfl, rfl, rfl⟩)
    · exact .lead true next (.inl rfl)
    · exact .lead true next (.inr rfl)
    · exact .level true next
    · exact .lead false next (.inl rfl)
    · exact .lead false next (.inr rfl)
    · exact .level false next
    · exact .leave
  · intro follows
    cases follows with
    | lead l next free =>
      rcases free with rfl | rfl <;> cases l
      · exact built.moves_by 3 rfl _ (reads_some.mpr ⟨next, rfl⟩)
      · exact built.moves_by 0 rfl _ (reads_some.mpr ⟨next, rfl⟩)
      · exact built.moves_by 4 rfl _ (reads_some.mpr ⟨next, rfl⟩)
      · exact built.moves_by 1 rfl _ (reads_some.mpr ⟨next, rfl⟩)
    | level l next =>
      cases l
      · exact built.moves_by 5 rfl _ (reads_some.mpr ⟨next, rfl⟩)
      · exact built.moves_by 2 rfl _ (reads_some.mpr ⟨next, rfl⟩)
    | leave => exact built.moves_by 6 rfl _ (reads_none.mpr rfl)

/-! ### What a run costs -/

def rank (word : Word) (c : Configuration) : Nat :=
  word.length - c.cursor + if c.state = "q0" then 1 else 0

/-- What is paid for a move that reads. -/
def reading (word : Word) (c : Configuration) : Nat :=
  if c.state = "q0" then 2 * (word.length - c.cursor) else 0

/-- What is paid for the move to `qf`. -/
def leaving (c : Configuration) : Nat := if c.state = "q0" then 1 else 0

theorem measured (word : Word) : equalCounts.Measured word (rank word)
    fun c => reading word c + leaving c + 1 := by
  have forks : Forks (Definition.equalCounts.rules.map Rule.transition) := by decide
  apply forks.measured built (reading word) leaving
  · intro c c' moves
    cases moves_iff.mp moves with
    | lead l next | level l next =>
      obtain ⟨inside, -⟩ := List.getElem?_eq_some_iff.mp next
      simp only [rank, if_true]
      omega
    | leave => simp [rank]
  · intro c c' moves
    cases moves_iff.mp moves with
    | lead l next | level l next =>
      obtain ⟨inside, -⟩ := List.getElem?_eq_some_iff.mp next
      simp only [reading, leaving, if_true, Nat.lt_succ_self]
      omega
    | leave => simp [reading, leaving]
  · intro c
    exact Nat.lt_succ_self _

/-! ### Which letter is ahead -/

/-- A letter has been read `n` times more often than the other. -/
def Ahead (read : Word) (l : Bool) (n : Nat) : Prop :=
  read.count (letter l) = read.count (letter !l) + n

theorem count_letter (l l' : Bool) : [letter l].count (letter l') = if l = l' then 1 else 0 := by
  cases l <;> cases l' <;> rfl

theorem Ahead.even {read : Word} {l : Bool} (ahead : Ahead read l 0) :
    read.count 'a' = read.count 'b' := by
  cases l with
  | true => exact ahead
  | false => exact ahead.symm

theorem Ahead.of_even {read : Word} (even : read.count 'a' = read.count 'b') (l : Bool) :
    Ahead read l 0 := by
  cases l with
  | true => exact even
  | false => exact even.symm

theorem Ahead.eq_zero {read : Word} {l : Bool} {n : Nat} (ahead : Ahead read l n)
    (even : read.count 'a' = read.count 'b') : n = 0 := by
  unfold Ahead at ahead
  cases l <;> simp only [letter, Bool.not_true, Bool.not_false] at ahead <;> omega

theorem Ahead.lead {read : Word} {l : Bool} {n : Nat} (ahead : Ahead read l n) :
    Ahead (read ++ [letter l]) l (n + 1) := by
  unfold Ahead at *
  simp only [List.count_append, count_letter, Bool.eq_not_self, if_true, if_false]
  omega

theorem Ahead.level {read : Word} {l : Bool} {n : Nat} (ahead : Ahead read (!l) (n + 1)) :
    Ahead (read ++ [letter l]) (!l) n := by
  unfold Ahead at *
  simp only [Bool.not_not, List.count_append, count_letter, Bool.eq_not_self, if_true,
    if_false] at ahead ⊢
  omega

/-! ### What is reached -/

/-- The stack shows which letter is ahead in what has been read, and in `qf` neither is. -/
structure Accounts (word : Word) (c : Configuration) : Prop where
  shows : ∃ l n, c.stack = counter (mark l) n ∧ Ahead (word.take c.cursor) l n
  even : c.state = "qf" → (word.take c.cursor).count 'a' = (word.take c.cursor).count 'b'

theorem Accounts.keeps (before : Accounts word c) (follows : Follows word c c') :
    Accounts word c' := by
  obtain ⟨l', n, stack, ahead⟩ := before.shows
  cases follows with
  | lead l next free =>
    refine ⟨⟨l, n + 1, ?_⟩, by simp⟩
    rw [take_next next]
    cases free with
    | inl marker =>
      subst marker
      obtain rfl := eq_zero_of_push_marker (mark_ne _) stack
      exact ⟨congrArg (·.push [mark l]) stack, (Ahead.of_even ahead.even l).lead⟩
    | inr same =>
      subst same
      obtain ⟨same, -⟩ := eq_counter_of_push (mark_ne l) stack
      obtain rfl := mark_injective same
      exact ⟨congrArg (·.push [mark l]) stack, ahead.lead⟩
  | level l next =>
    obtain ⟨same, k, rfl, rest⟩ := eq_counter_of_push (mark_ne _) stack
    obtain rfl := mark_injective same
    refine ⟨⟨!l, k, rest, ?_⟩, by simp⟩
    rw [take_next next]
    exact ahead.level
  | leave =>
    obtain rfl := eq_zero_of_push_marker (mark_ne _) stack
    exact ⟨⟨l', 0, stack, ahead⟩, fun _ => ahead.even⟩

theorem accounts (reached : equalCounts.Reaches word c) : Accounts word c := by
  apply reached.keeps
  · exact ⟨⟨true, 0, rfl, rfl⟩, by simp [initialConfiguration, equalCounts]⟩
  · intro c c' before moves
    exact before.keeps (moves_iff.mp moves)

theorem letters (reached : equalCounts.Reaches word c) :
    ∀ x ∈ word.take c.cursor, ∃ l, x = letter l := by
  apply reached.keeps (P := fun c => ∀ x ∈ word.take c.cursor, ∃ l, x = letter l)
  · intro x member
    cases member
  · intro c c' before moves
    cases moves_iff.mp moves with
    | lead l next | level l next =>
      simp only [take_next next, List.forall_mem_append]
      exact ⟨before, fun x member => ⟨l, List.mem_singleton.mp member⟩⟩
    | leave => exact before

theorem reaches_counting (only : ∀ x ∈ word, ∃ l, x = letter l) {i : Nat}
    (inside : i ≤ word.length) : ∃ l n, equalCounts.Reaches word ⟨"q0", i, counter (mark l) n⟩ := by
  induction i with
  | zero => exact ⟨true, 0, .start⟩
  | succ i ih =>
    obtain ⟨l', n, before⟩ := ih (Nat.le_of_lt inside)
    obtain ⟨l, same⟩ := only _ (List.getElem_mem inside)
    have next : word[i]? = some (letter l) := by rw [List.getElem?_eq_getElem inside, same]
    cases n with
    | zero => exact ⟨l, 1, before.move (moves_iff.mpr (.lead l next (.inl rfl)))⟩
    | succ n =>
      by_cases leads : l' = l
      · subst leads
        exact ⟨l', n + 2, before.move (moves_iff.mpr (.lead l' next (.inr rfl)))⟩
      · obtain rfl : l' = !l := Bool.eq_not.mpr leads
        exact ⟨!l, n, before.move (moves_iff.mpr (.level l next))⟩

/-! ### The language -/

/-- Where an empty stack would do as well, the marker is still there. -/
theorem accepting_in_qf {criterion : Criterion} (reached : equalCounts.Reaches word c)
    (accepting : Accepting equalCounts word c criterion) :
    criterion = .finalState ∧ c.state = "qf" := by
  cases criterion with
  | finalState => exact ⟨rfl, List.mem_singleton.mp accepting.holds⟩
  | emptyStack =>
    obtain ⟨l, n, stack, -⟩ := (accounts reached).shows
    have empty : c.stack.toList = [] := accepting.holds
    exact absurd (stack ▸ empty) (counter_ne_empty)

theorem mem_language : word ∈ equalCounts.language ↔
    (∀ x ∈ word, x = 'a' ∨ x = 'b') ∧ word.count 'a' = word.count 'b' := by
  have two : ∀ x, (∃ l, x = letter l) ↔ x = 'a' ∨ x = 'b' := by
    intro x
    simp [letter, or_comm]
  simp only [Automaton.mem_language, ← two]
  constructor
  · rintro ⟨c, criterion, reached, accepting⟩
    have all : word.take c.cursor = word := by rw [accepting.finished, List.take_length]
    have only := letters reached
    have even := (accounts reached).even (accepting_in_qf reached accepting).2
    rw [all] at only even
    exact ⟨only, even⟩
  · rintro ⟨only, even⟩
    obtain ⟨l, n, reached⟩ := reaches_counting only (Nat.le_refl _)
    obtain ⟨l', n', stack, ahead⟩ := (accounts reached).shows
    rw [List.take_length] at ahead
    obtain rfl := ahead.eq_zero even
    have marker : counter (mark l) n = .ofWord ['Z'] := stack
    rw [marker] at reached
    have left := reached.move (moves_iff.mpr .leave)
    exact ⟨_, .finalState, left, rfl, trivial, List.mem_singleton.mpr rfl⟩

end Automaton.equalCounts

/-- The sample decides the words of as many `a` as `b`, in any budget that allows paths of two
configurations more than there are symbols and two steps for each of their positions. What accepts
is the final state. -/
theorem sample_decides_equal_counts :
    ∃ a, Samples.automaton "Equal a and b" = .ok a ∧
      ∀ (word : Word) (budget : Budget) (clock : Clock), budget.timeout = none →
        word.length + 2 ≤ budget.maxDepth → 2 * (word.length + 1) ≤ budget.maxSteps →
          ((∃ criterion, (a.run word budget clock).verdict = .accepted criterion) ↔
            (∀ x ∈ word, x = 'a' ∨ x = 'b') ∧ word.count 'a' = word.count 'b') ∧
          (∀ criterion, (a.run word budget clock).verdict = .accepted criterion →
            criterion = .finalState) ∧
          (a.run word budget clock).verdict ≠ .rejected .outOfBudget := by
  refine ⟨.equalCounts, Samples.automaton_equalCounts, ?_⟩
  intro word budget clock untimed deep enough
  have built := Automaton.equalCounts.built
  obtain ⟨conclusive, decides⟩ : (Automaton.equalCounts.run word budget clock).verdict ≠
      .rejected .outOfBudget ∧ (_ ↔ word ∈ Automaton.equalCounts.language) := by
    apply (Automaton.equalCounts.measured word).conclusive built untimed
    · show word.length + 1 < budget.maxDepth
      omega
    · show 2 * word.length + 1 + 1 ≤ budget.maxSteps
      omega
  rw [Automaton.equalCounts.mem_language] at decides
  refine ⟨decides, ?_, conclusive⟩
  intro criterion accepted
  obtain ⟨c, computed, accepting⟩ := built.run_accepted untimed accepted
  exact (Automaton.equalCounts.accepting_in_qf ⟨_, computed⟩ accepting).1

theorem sample_decides_equal_counts_tight :
    ∃ a, Samples.automaton "Equal a and b" = .ok a ∧
      (a.run ['a', 'b', 'b', 'a'] ⟨10, 6, none⟩ .still).verdict = .accepted .finalState ∧
      (¬ ∃ criterion, (a.run ['a', 'b', 'b'] ⟨8, 5, none⟩ .still).verdict = .accepted criterion) ∧
      ¬ ∃ criterion, (a.run ['a', 'c'] ⟨6, 4, none⟩ .still).verdict = .accepted criterion := by
  obtain ⟨a, built, decides⟩ := sample_decides_equal_counts
  refine ⟨a, built, ?_, ?_, ?_⟩
  · obtain ⟨language, final, -⟩ := decides ['a', 'b', 'b', 'a'] ⟨10, 6, none⟩ .still rfl
      (by decide) (by decide)
    obtain ⟨criterion, accepted⟩ := language.mpr (by simp)
    rw [accepted, final criterion accepted]
  · rw [(decides _ _ _ rfl (by decide) (by decide)).1]
    simp
  · rw [(decides _ _ _ rfl (by decide) (by decide)).1]
    simp

end Pushdown
