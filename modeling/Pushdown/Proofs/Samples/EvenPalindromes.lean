import Pushdown.Proofs.Measures
import Pushdown.Proofs.Samples.Automata

/-!
# The sample for even palindromes

In `push` the automaton puts what it reads on the stack, and at any moment it may take that for the
first half and go on to `match`, where it reads only what is on top. It decides the words of a half
and its reverse. Every moment is tried, and each costs no more than what is left to read.
-/

namespace Pushdown

namespace Automaton.evenPalindromes

variable {word : Word} {c c' : Configuration}

def IsLetter (x : Symbol) : Prop := x = 'a' ∨ x = 'b'

theorem built : evenPalindromes.Built (Definition.evenPalindromes.rules.map Rule.transition) :=
  ofDefinition_built ofDefinition_evenPalindromes

inductive Follows (word : Word) : Configuration → Configuration → Prop where
  | store {i : Nat} {stack : Stack} {x : Symbol} (letter : IsLetter x) (next : word[i]? = some x) :
    Follows word ⟨"push", i, stack⟩ ⟨"push", i + 1, stack.push [x]⟩
  | turn {i : Nat} {stack : Stack} : Follows word ⟨"push", i, stack⟩ ⟨"match", i, stack⟩
  | pair {i : Nat} {below : Stack} {x : Symbol} (letter : IsLetter x) (next : word[i]? = some x) :
    Follows word ⟨"match", i, below.push [x]⟩ ⟨"match", i + 1, below⟩

theorem moves_iff : evenPalindromes.Moves word c c' ↔ Follows word c c' := by
  constructor
  · rw [built.moves_iff]
    simp only [Definition.evenPalindromes, List.mem_cons, List.not_mem_nil, or_false,
      exists_eq_or_imp, exists_eq_left, Rule.Applies, reads_some, reads_none]
    rintro (⟨i, _, below, ⟨next, rfl⟩, rfl, rfl⟩ | ⟨i, _, below, ⟨next, rfl⟩, rfl, rfl⟩ |
      ⟨i, _, below, rfl, rfl, rfl⟩ | ⟨i, _, below, ⟨next, rfl⟩, rfl, rfl⟩ |
      ⟨i, _, below, ⟨next, rfl⟩, rfl, rfl⟩)
    · exact .store (.inl rfl) next
    · exact .store (.inr rfl) next
    · exact .turn
    · exact .pair (.inl rfl) next
    · exact .pair (.inr rfl) next
  · intro follows
    cases follows with
    | store letter next =>
      rcases letter with rfl | rfl
      · exact built.moves_by 0 rfl _ (reads_some.mpr ⟨next, rfl⟩)
      · exact built.moves_by 1 rfl _ (reads_some.mpr ⟨next, rfl⟩)
    | turn => exact built.moves_by 2 rfl _ (reads_none.mpr rfl)
    | pair letter next =>
      rcases letter with rfl | rfl
      · exact built.moves_by 3 rfl _ (reads_some.mpr ⟨next, rfl⟩)
      · exact built.moves_by 4 rfl _ (reads_some.mpr ⟨next, rfl⟩)

/-! ### What a run costs -/

def rank (word : Word) (c : Configuration) : Nat :=
  word.length - c.cursor + if c.state = "push" then 1 else 0

/-- From `push` there is a way through `match` at each position, none longer than what is left. -/
def weight (word : Word) (c : Configuration) : Nat :=
  let left := word.length - c.cursor
  if c.state = "push" then (left + 1) * (left + 2) else left + 1

def reading (word : Word) (c : Configuration) : Nat :=
  let left := word.length - c.cursor
  if c.state = "push" then left * (left + 1) else left

def turning (word : Word) (c : Configuration) : Nat :=
  if c.state = "push" then word.length - c.cursor + 1 else 0

theorem measured (word : Word) : evenPalindromes.Measured word (rank word) (weight word) := by
  have forks : Forks (Definition.evenPalindromes.rules.map Rule.transition) := by decide
  apply forks.measured built (reading word) (turning word)
  · intro c c' moves
    cases moves_iff.mp moves with
    | store letter next | pair letter next =>
      obtain ⟨inside, -⟩ := List.getElem?_eq_some_iff.mp next
      simp only [rank]
      omega
    | turn => simp [rank]
  · intro c c' moves
    cases moves_iff.mp moves with
    | @store i _ _ letter next | @pair i _ _ letter next =>
      obtain ⟨inside, -⟩ := List.getElem?_eq_some_iff.mp next
      have left : word.length - i = word.length - (i + 1) + 1 := by omega
      simp [weight, reading, left]
    | turn => simp [weight, turning]
  · intro c
    unfold reading turning weight
    dsimp only
    split
    · rw [← Nat.succ_mul, Nat.mul_lt_mul_left (Nat.succ_pos _)]
      omega
    · omega

/-! ### What is reached -/

/-- The stack mirrors what has been read, as long as it is taken for the first half. What has been
read and what is on the stack make an even palindrome all the time. -/
structure Accounts (word : Word) (c : Configuration) : Prop where
  letters : ∀ x ∈ word.take c.cursor, IsLetter x
  mirrors : c.state = "push" → c.stack.toList = (word.take c.cursor).reverse
  even : ∃ half, word.take c.cursor ++ c.stack.toList = half ++ half.reverse

theorem Accounts.keeps (before : Accounts word c) (follows : Follows word c c') :
    Accounts word c' := by
  obtain ⟨letters, mirrors, half, even⟩ := before
  cases follows with
  | @store i stack x letter next =>
    have read := take_next next
    have mirror : (stack.push [x]).toList = (word.take (i + 1)).reverse := by
      rw [read, List.reverse_append, ← mirrors rfl]
      rfl
    refine ⟨?_, fun _ => mirror, word.take (i + 1), congrArg _ mirror⟩
    rw [read]
    exact List.forall_mem_append.mpr ⟨letters, by simpa using letter⟩
  | turn => exact ⟨letters, by simp, half, even⟩
  | @pair i below x letter next =>
    have read := take_next next
    refine ⟨?_, by simp, half, ?_⟩
    · rw [read]
      exact List.forall_mem_append.mpr ⟨letters, by simpa using letter⟩
    · rw [read, List.append_assoc]
      exact even

theorem accounts (reached : evenPalindromes.Reaches word c) : Accounts word c := by
  apply reached.keeps
  · exact ⟨by simp [initialConfiguration], fun _ => rfl, [], rfl⟩
  · intro c c' before moves
    exact before.keeps (moves_iff.mp moves)

/-- Anything may be taken for the first half. -/
theorem reaches_push (letters : ∀ x ∈ word, IsLetter x) {i : Nat} (inside : i ≤ word.length) :
    evenPalindromes.Reaches word ⟨"push", i, .ofWord (word.take i)⟩ := by
  induction i with
  | zero => exact .start
  | succ i ih =>
    obtain ⟨x, next⟩ : ∃ x, word[i]? = some x := ⟨_, List.getElem?_eq_getElem inside⟩
    have stored := (ih (Nat.le_of_lt inside)).move
      (moves_iff.mpr (.store (letters x (List.mem_of_getElem? next)) next))
    have stack : (Stack.ofWord (word.take i)).push [x] = .ofWord (word.take (i + 1)) :=
      Stack.ext (by simp [take_next next])
    rwa [stack] at stored

/-- A second half that is on the stack is read to its end. -/
theorem reaches_end {read rest : Word} (letters : ∀ x ∈ rest, IsLetter x)
    (reached : evenPalindromes.Reaches (read ++ rest)
      ⟨"match", read.length, .ofWord rest.reverse⟩) :
    evenPalindromes.Reaches (read ++ rest) ⟨"match", (read ++ rest).length, .empty⟩ := by
  -- What has been read grows by what is taken from the rest, so that the word stays.
  induction rest generalizing read with
  | nil =>
    rw [List.append_nil] at reached ⊢
    exact reached
  | cons x rest ih =>
    obtain ⟨letter, letters⟩ := List.forall_mem_cons.mp letters
    have stack : Stack.ofWord (x :: rest).reverse = (Stack.ofWord rest.reverse).push [x] :=
      Stack.ext (by simp)
    rw [stack] at reached
    have paired := reached.move (moves_iff.mpr (.pair letter (by simp)))
    rw [List.append_cons] at paired ⊢
    exact ih letters (by simpa using paired)

/-! ### The language -/

theorem mem_language : word ∈ evenPalindromes.language ↔
    (∀ x ∈ word, IsLetter x) ∧ ∃ half, word = half ++ half.reverse := by
  rw [Automaton.mem_language]
  constructor
  · rintro ⟨c, criterion, reached, finished, rfl, empty⟩
    obtain ⟨letters, -, half, even⟩ := accounts reached
    rw [finished, List.take_length] at letters even
    have stack : c.stack.toList = [] := empty
    rw [stack, List.append_nil] at even
    exact ⟨letters, half, even⟩
  · rintro ⟨letters, half, rfl⟩
    have first := reaches_push letters (i := half.length) (by simp)
    rw [List.take_left] at first
    have turned := first.move (moves_iff.mpr .turn)
    obtain ⟨-, second⟩ := List.forall_mem_append.mp letters
    have reached := reaches_end second (by rwa [List.reverse_reverse])
    exact ⟨_, .emptyStack, reached, rfl, rfl, rfl⟩

end Automaton.evenPalindromes

/-- The sample decides the words of `a` and `b` that are a half and its reverse, in any budget that
allows paths of two configurations more than there are symbols, and so many steps for each of their
positions. -/
theorem sample_decides_even_palindromes :
    ∃ a, Samples.automaton "Even palindromes" = .ok a ∧
      ∀ (word : Word) (budget : Budget) (clock : Clock), budget.timeout = none →
        word.length + 2 ≤ budget.maxDepth →
        (word.length + 1) * (word.length + 2) ≤ budget.maxSteps →
          ((∃ criterion, (a.run word budget clock).verdict = .accepted criterion) ↔
            (∀ x ∈ word, x = 'a' ∨ x = 'b') ∧ ∃ half, word = half ++ half.reverse) ∧
          (a.run word budget clock).verdict ≠ .rejected .outOfBudget := by
  refine ⟨.evenPalindromes, Samples.automaton_evenPalindromes, ?_⟩
  intro word budget clock untimed deep enough
  obtain ⟨conclusive, decides⟩ : (Automaton.evenPalindromes.run word budget clock).verdict ≠
      .rejected .outOfBudget ∧ (_ ↔ word ∈ Automaton.evenPalindromes.language) := by
    apply (Automaton.evenPalindromes.measured word).conclusive Automaton.evenPalindromes.built
      untimed
    · show word.length + 1 < budget.maxDepth
      omega
    · exact enough
  exact ⟨decides.trans Automaton.evenPalindromes.mem_language, conclusive⟩

theorem sample_decides_even_palindromes_tight :
    ∃ a, Samples.automaton "Even palindromes" = .ok a ∧
      (∃ criterion,
        (a.run ['a', 'b', 'b', 'a'] ⟨30, 6, none⟩ .still).verdict = .accepted criterion) ∧
      ¬ ∃ criterion,
        (a.run ['a', 'b', 'a'] ⟨20, 5, none⟩ .still).verdict = .accepted criterion := by
  obtain ⟨a, built, decides⟩ := sample_decides_even_palindromes
  refine ⟨a, built, ?_, ?_⟩
  · rw [(decides _ _ _ rfl (by decide) (by decide)).1]
    exact ⟨by simp, ['a', 'b'], rfl⟩
  · rw [(decides _ _ _ rfl (by decide) (by decide)).1]
    rintro ⟨-, half, same⟩
    have odd := congrArg List.length same
    simp at odd
    omega

end Pushdown
