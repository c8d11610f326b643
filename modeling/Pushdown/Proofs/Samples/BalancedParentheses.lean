import Mathlib.Combinatorics.Enumerative.DyckWord
import Pushdown.Proofs.Measures
import Pushdown.Proofs.Samples.Automata

/-!
# The sample for balanced parentheses

The automaton keeps one `X` on the stack for each open parenthesis. It has one state and a choice
nowhere, so that a run is one path and shows how far a word can be read: up to its first fault, or
to its end with what is still open on the stack. `Balanced` is the grammar of the words that it
accepts, which Dyck words relate to what is counted.
-/

namespace Pushdown

/-! ### Words of parentheses -/

/-- The words that close all parentheses that they open, and no others. -/
inductive Balanced : Word → Prop where
  | nil : Balanced []
  | nest {inside after : Word} : Balanced inside → Balanced after →
    Balanced ('(' :: inside ++ ')' :: after)

/-- The symbol in a place is no parenthesis, or closes more than has been opened before it. -/
def Faulty (word : Word) (p : Nat) : Prop :=
  ∃ x ∈ word[p]?, x ≠ '(' ∧ x ≠ ')' ∨
    x = ')' ∧ (word.take p).count '(' < (word.take (p + 1)).count ')'

instance (word : Word) (p : Nat) : Decidable (Faulty word p) :=
  match next : word[p]? with
  | none => .isFalse (by simp [Faulty, next])
  | some x => decidable_of_iff (x ≠ '(' ∧ x ≠ ')' ∨
      x = ')' ∧ (word.take p).count '(' < (word.take (p + 1)).count ')') (by simp [Faulty, next])

theorem count_take_opening {word : Word} {i : Nat} (next : word[i]? = some '(') :
    (word.take (i + 1)).count '(' = (word.take i).count '(' + 1 ∧
      (word.take (i + 1)).count ')' = (word.take i).count ')' := by
  simp [take_next next]

theorem count_take_closing {word : Word} {i : Nat} (next : word[i]? = some ')') :
    (word.take (i + 1)).count '(' = (word.take i).count '(' ∧
      (word.take (i + 1)).count ')' = (word.take i).count ')' + 1 := by
  simp [take_next next]

theorem not_faulty_of_lt {word : Word} (sound : ∀ p < word.length, ¬ Faulty word p) :
    ∀ p, ¬ Faulty word p := by
  rintro p ⟨x, next, fault⟩
  obtain ⟨inside, -⟩ := List.getElem?_eq_some_iff.mp next
  exact sound p inside ⟨x, next, fault⟩

theorem parens_of_not_faulty {word : Word} (sound : ∀ p, ¬ Faulty word p) :
    ∀ x ∈ word, x = '(' ∨ x = ')' := by
  intro x member
  obtain ⟨p, inside, rfl⟩ := List.getElem_of_mem member
  by_contra other
  rw [not_or] at other
  exact sound p ⟨_, List.getElem?_eq_getElem inside, .inl other⟩

/-- Where there are only parentheses, a fault is a prefix that closes more than it opens. -/
theorem forall_not_faulty_iff {word : Word} (only : ∀ x ∈ word, x = '(' ∨ x = ')') :
    (∀ p, ¬ Faulty word p) ↔ ∀ i, (word.take i).count ')' ≤ (word.take i).count '(' := by
  constructor
  · intro sound i
    induction i with
    | zero => exact Nat.le_refl _
    | succ i ih =>
      cases next : word[i]? with
      | none => simpa [List.take_add_one, next] using ih
      | some x =>
        rcases only x (List.mem_of_getElem? next) with rfl | rfl
        · have counts := count_take_opening next
          omega
        · have covered : ¬ (word.take i).count '(' < (word.take (i + 1)).count ')' :=
            fun exceeds => sound i ⟨_, next, .inr ⟨rfl, exceeds⟩⟩
          have counts := count_take_closing next
          omega
  · rintro covered p ⟨x, next, ⟨notOpen, notClosed⟩ | ⟨rfl, exceeds⟩⟩
    · rcases only x (List.mem_of_getElem? next) with rfl | rfl
      · exact notOpen rfl
      · exact notClosed rfl
    · have next : word[p]? = some ')' := next
      have counts := count_take_closing next
      have := covered (p + 1)
      omega

namespace Balanced

variable {word : Word}

def paren : DyckStep → Symbol
  | .U => '('
  | .D => ')'

theorem paren_injective : Function.Injective paren := by
  apply Function.LeftInverse.injective (g := fun x => if x = '(' then .U else .D)
  intro s
  cases s <;> rfl

@[simp] theorem count_opening (steps : List DyckStep) :
    (steps.map paren).count '(' = steps.count .U :=
  List.count_map_of_injective _ _ paren_injective .U

@[simp] theorem count_closing (steps : List DyckStep) :
    (steps.map paren).count ')' = steps.count .D :=
  List.count_map_of_injective _ _ paren_injective .D

theorem exists_steps_iff :
    (∃ steps, List.map paren steps = word) ↔ ∀ x ∈ word, x = '(' ∨ x = ')' := by
  have range : ∀ x, x ∈ Set.range paren ↔ x = '(' ∨ x = ')' := by
    intro x
    constructor
    · rintro ⟨s, rfl⟩
      cases s with
      | U => exact .inl rfl
      | D => exact .inr rfl
    · rintro (rfl | rfl)
      · exact ⟨.U, rfl⟩
      · exact ⟨.D, rfl⟩
  simp only [← range]
  rw [← Set.mem_range, Set.range_list_map]
  rfl

theorem map_nest_add (d d' : DyckWord) : (d.nest + d').toList.map paren =
    '(' :: d.toList.map paren ++ ')' :: d'.toList.map paren := by
  show ((DyckStep.U :: d.toList ++ [DyckStep.D]) ++ d'.toList).map paren = _
  simp [paren]

theorem of_dyckWord (d : DyckWord) : Balanced (d.toList.map paren) := by
  by_cases empty : d = 0
  · subst empty
    exact .nil
  · have inside := of_dyckWord d.insidePart
    have after := of_dyckWord d.outsidePart
    rw [← d.nest_insidePart_add_outsidePart empty, map_nest_add]
    exact inside.nest after
termination_by d.semilength
decreasing_by
  · exact DyckWord.semilength_insidePart_lt empty
  · exact DyckWord.semilength_outsidePart_lt empty

theorem exists_dyckWord (balanced : Balanced word) :
    ∃ d : DyckWord, d.toList.map paren = word := by
  induction balanced with
  | nil => exact ⟨0, rfl⟩
  | nest _ _ inside after =>
    obtain ⟨d, rfl⟩ := inside
    obtain ⟨d', rfl⟩ := after
    exact ⟨d.nest + d', map_nest_add d d'⟩

/-- A word is balanced if it has no fault and as many parentheses are closed as are opened. -/
theorem iff_counts : Balanced word ↔
    (∀ p, ¬ Faulty word p) ∧ word.count '(' = word.count ')' := by
  constructor
  · intro balanced
    obtain ⟨d, rfl⟩ := balanced.exists_dyckWord
    rw [forall_not_faulty_iff (exists_steps_iff.mp ⟨_, rfl⟩)]
    simp only [← List.map_take, count_opening, count_closing]
    exact ⟨d.count_D_le_count_U, d.count_U_eq_count_D⟩
  · rintro ⟨sound, even⟩
    have only := parens_of_not_faulty sound
    obtain ⟨steps, rfl⟩ := exists_steps_iff.mpr only
    have covered := (forall_not_faulty_iff only).mp sound
    simp only [← List.map_take, count_opening, count_closing] at covered even
    exact of_dyckWord ⟨steps, even, covered⟩

end Balanced

namespace Automaton.balancedParentheses

variable {word : Word} {budget : Budget} {clock : Clock} {steps : List Step}
  {c c' : Configuration}

theorem built :
    balancedParentheses.Built (Definition.balancedParentheses.rules.map Rule.transition) :=
  ofDefinition_built ofDefinition_balancedParentheses

inductive Follows (word : Word) : Configuration → Configuration → Prop where
  | opens {i : Nat} {below : Stack} (next : word[i]? = some '(') :
    Follows word ⟨"q0", i, below⟩ ⟨"q0", i + 1, below.push ['X']⟩
  | closes {i : Nat} {below : Stack} (next : word[i]? = some ')') :
    Follows word ⟨"q0", i, below.push ['X']⟩ ⟨"q0", i + 1, below⟩

theorem moves_iff : balancedParentheses.Moves word c c' ↔ Follows word c c' := by
  constructor
  · rw [built.moves_iff]
    simp only [Definition.balancedParentheses, List.mem_cons, List.not_mem_nil, or_false,
      exists_eq_or_imp, exists_eq_left, Rule.Applies, reads_some]
    rintro (⟨i, _, below, ⟨next, rfl⟩, rfl, rfl⟩ | ⟨i, _, below, ⟨next, rfl⟩, rfl, rfl⟩)
    · exact .opens next
    · exact .closes next
  · intro follows
    cases follows with
    | opens next => exact built.moves_by 0 rfl _ (reads_some.mpr ⟨next, rfl⟩)
    | closes next => exact built.moves_by 1 rfl _ (reads_some.mpr ⟨next, rfl⟩)

theorem Follows.cursor_eq (follows : Follows word c c') :
    c'.cursor = c.cursor + 1 ∧ c.cursor < word.length := by
  cases follows with
  | opens next | closes next =>
    obtain ⟨inside, -⟩ := List.getElem?_eq_some_iff.mp next
    exact ⟨rfl, inside⟩

/-- Every move reads, so that both bounds are what is left to read. -/
theorem measured (word : Word) : balancedParentheses.Measured word
    (fun c => word.length - c.cursor) fun c => word.length - c.cursor + 1 := by
  have forks : Forks (Definition.balancedParentheses.rules.map Rule.transition) := by decide
  apply forks.measured built (fun c => word.length - c.cursor) fun _ => 0
  · intro c c' moves
    have := (moves_iff.mp moves).cursor_eq
    omega
  · intro c c' moves
    have := (moves_iff.mp moves).cursor_eq
    rw [if_pos (by omega)]
    omega
  · intro c
    exact Nat.lt_succ_self _

/-! ### What is reached -/

/-- What has been read has no fault, and the stack has one `X` for each open parenthesis. -/
structure Accounts (word : Word) (c : Configuration) : Prop where
  state : c.state = "q0"
  sound : ∀ p < c.cursor, ¬ Faulty word p
  shows : ∃ n, c.stack.toList = .replicate n 'X' ∧
    (word.take c.cursor).count '(' = (word.take c.cursor).count ')' + n

theorem Accounts.keeps (before : Accounts word c) (follows : Follows word c c') :
    Accounts word c' := by
  obtain ⟨-, sound, n, stack, counts⟩ := before
  cases follows with
  | opens next =>
    have counts' := count_take_opening next
    dsimp only at sound stack counts
    refine ⟨rfl, Nat.forall_lt_succ_right.mpr ⟨sound, ?_⟩, n + 1, ?_, by dsimp only; omega⟩
    · simp [Faulty, next]
    · simpa [List.replicate_succ] using stack
  | closes next =>
    have counts' := count_take_closing next
    dsimp only at sound stack counts
    cases n with
    | zero => simp at stack
    | succ n =>
      refine ⟨rfl, Nat.forall_lt_succ_right.mpr ⟨sound, ?_⟩, n, ?_, by dsimp only; omega⟩
      · rintro ⟨x, next', other | ⟨-, exceeds⟩⟩
        · obtain rfl : x = ')' := Option.some.inj (next'.symm.trans next)
          exact other.2 rfl
        · omega
      · simpa [List.replicate_succ] using stack

theorem accounts (computed : Computation balancedParentheses word steps c) : Accounts word c := by
  have reached : balancedParentheses.Reaches word c := ⟨steps, computed⟩
  apply reached.keeps
  · exact ⟨rfl, by simp [initialConfiguration], 0, rfl, rfl⟩
  · intro c c' before moves
    exact before.keeps (moves_iff.mp moves)

/-- A computation has a step for each symbol that it has read. -/
theorem length_steps (computed : Computation balancedParentheses word steps c) :
    steps.length = c.cursor + 1 := by
  induction computed with
  | start => rfl
  | move _ move ih =>
    have read := (moves_iff.mp ⟨_, move⟩).cursor_eq
    simp only [List.length_append, List.length_singleton]
    omega

theorem faulty_of_stuck (reached : Accounts word c) (inside : c.cursor < word.length)
    (stuck : ∀ c', ¬ Follows word c c') : Faulty word c.cursor := by
  obtain ⟨state, i, stack⟩ := c
  obtain ⟨rfl, -, n, symbols, counts⟩ := reached
  obtain ⟨x, next⟩ : ∃ x, word[i]? = some x := ⟨_, List.getElem?_eq_getElem inside⟩
  refine ⟨x, next, ?_⟩
  by_cases opening : x = '('
  · subst opening
    exact absurd (.opens next) (stuck _)
  by_cases closing : x = ')'
  · subst closing
    cases n with
    | zero =>
      have counts' := count_take_closing next
      dsimp only at counts ⊢
      exact .inr ⟨rfl, by omega⟩
    | succ n =>
      have top : stack = (Stack.ofWord (.replicate n 'X')).push ['X'] :=
        Stack.ext (by simpa [List.replicate_succ] using symbols)
      subst top
      exact absurd (.closes next) (stuck _)
  · exact .inl ⟨opening, closing⟩

/-! ### How a run ends -/

inductive Outcome (word : Word) (run : Run) : Prop where
  | stuck (p : Nat) (faulty : Faulty word p) (first : ∀ q < p, ¬ Faulty word q)
    (verdict : run.verdict = .rejected (.stuck p)) (length : run.trace.steps.length = p + 1)
  | left (sound : ∀ p, ¬ Faulty word p) (more : word.count ')' < word.count '(')
    (verdict : run.verdict = .rejected .stackLeft)
    (length : run.trace.steps.length = word.length + 1)
  | closed (sound : ∀ p, ¬ Faulty word p) (even : word.count '(' = word.count ')')
    (verdict : run.verdict = .accepted .emptyStack)
    (length : run.trace.steps.length = word.length + 1)

theorem Accounts.at_end (reached : Accounts word c) (finished : c.cursor = word.length) :
    (∀ p, ¬ Faulty word p) ∧ word.count '(' = word.count ')' + c.stack.toList.length := by
  obtain ⟨-, sound, n, stack, counts⟩ := reached
  rw [finished] at sound counts
  exact ⟨not_faulty_of_lt sound, by simpa [stack] using counts⟩

theorem run_outcome (untimed : budget.timeout = none) (deep : word.length + 1 ≤ budget.maxDepth)
    (enough : word.length + 1 ≤ budget.maxSteps) :
    Outcome word (balancedParentheses.run word budget clock) := by
  obtain ⟨conclusive, -⟩ : (balancedParentheses.run word budget clock).verdict ≠
      .rejected .outOfBudget ∧ (_ ↔ word ∈ balancedParentheses.language) :=
    (measured word).conclusive built untimed deep enough
  cases verdict : (balancedParentheses.run word budget clock).verdict with
  | accepted criterion =>
    obtain ⟨c, computed, finished, rfl, empty⟩ := built.run_accepted untimed verdict
    have length := length_steps computed
    obtain ⟨sound, counts⟩ := (accounts computed).at_end finished
    rw [show c.stack.toList = [] from empty] at counts
    exact .closed sound counts verdict (finished ▸ length)
  | rejected reason =>
    obtain ⟨c, computed, describes, same⟩ :=
      built.run_rejected verdict (by rintro rfl; exact conclusive verdict)
    have reached := accounts computed
    have length := length_steps computed
    cases reason with
    | stuck p =>
      obtain ⟨rfl, inside, none⟩ := describes
      rw [same] at inside none
      have faulty := faulty_of_stuck reached inside fun c' follows => by
        obtain ⟨t, move⟩ := moves_iff.mpr follows
        exact built.exists_move_iff.mp ⟨t, c', move⟩ (built.moves_eq_nil_iff.mpr none)
      exact .stuck c.cursor faulty reached.sound verdict length
    | circling p =>
      obtain ⟨-, -, -, ⟨t, c', move, silent⟩, -⟩ := describes
      rw [same] at move
      have stays := move.reads
      rw [silent, reads_none] at stays
      have := (moves_iff.mp ⟨t, move⟩).cursor_eq
      omega
    | stackLeft =>
      obtain ⟨finished, -, symbols⟩ := describes
      rw [same] at finished
      obtain ⟨sound, counts⟩ := reached.at_end finished
      have := List.length_pos_iff.mpr symbols
      exact .left sound (by omega) verdict (finished ▸ length)
    | notFinal =>
      obtain ⟨-, -, mode | ⟨mode, -⟩⟩ := describes <;> cases mode
    | outOfBudget => exact absurd verdict conclusive

end Automaton.balancedParentheses

/-- The sample stops at the first fault of a word, and otherwise with what is left open, in any
budget that allows for the symbols of the word and one more. -/
theorem sample_judges_parentheses :
    ∃ a, Samples.automaton "Balanced parentheses" = .ok a ∧
      ∀ (word : Word) (budget : Budget) (clock : Clock), budget.timeout = none →
        word.length + 1 ≤ budget.maxDepth → word.length + 1 ≤ budget.maxSteps →
          (∀ p, Faulty word p → (∀ q < p, ¬ Faulty word q) →
            (a.run word budget clock).verdict = .rejected (.stuck p) ∧
            (a.run word budget clock).trace.length = p + 1) ∧
          ((∀ p, ¬ Faulty word p) → word.count ')' < word.count '(' →
            (a.run word budget clock).verdict = .rejected .stackLeft ∧
            (a.run word budget clock).trace.length = word.length + 1) ∧
          ((∀ p, ¬ Faulty word p) → ¬ word.count ')' < word.count '(' →
            Balanced word ∧
            (a.run word budget clock).verdict = .accepted .emptyStack ∧
            (a.run word budget clock).trace.length = word.length + 1) := by
  refine ⟨.balancedParentheses, Samples.automaton_balancedParentheses, ?_⟩
  intro word budget clock untimed deep enough
  have outcome : Automaton.balancedParentheses.Outcome word
      (Automaton.balancedParentheses.run word budget clock) :=
    Automaton.balancedParentheses.run_outcome untimed deep enough
  cases outcome with
  | stuck p faulty first verdict length =>
    refine ⟨?_, ?_, ?_⟩
    · intro q faulty' first'
      obtain rfl : q = p := by
        rcases Nat.lt_trichotomy q p with before | same | after
        · exact absurd faulty' (first q before)
        · exact same
        · exact absurd faulty (first' p after)
      exact ⟨verdict, length⟩
    · intro sound
      exact absurd faulty (sound p)
    · intro sound
      exact absurd faulty (sound p)
  | left sound more verdict length =>
    refine ⟨?_, ?_, ?_⟩
    · intro p faulty
      exact absurd faulty (sound p)
    · intro _ _
      exact ⟨verdict, length⟩
    · intro _ closed
      exact absurd more closed
  | closed sound even verdict length =>
    refine ⟨?_, ?_, ?_⟩
    · intro p faulty
      exact absurd faulty (sound p)
    · intro _ more
      omega
    · intro _ _
      exact ⟨Balanced.iff_counts.mpr ⟨sound, even⟩, verdict, length⟩

theorem sample_judges_parentheses_tight :
    ∃ a, Samples.automaton "Balanced parentheses" = .ok a ∧
      (a.run ['(', ')', ')', '('] ⟨5, 5, none⟩ .still).verdict = .rejected (.stuck 2) ∧
      (a.run ['(', '(', ')'] ⟨4, 4, none⟩ .still).verdict = .rejected .stackLeft ∧
      (a.run ['(', '(', ')', ')'] ⟨5, 5, none⟩ .still).verdict = .accepted .emptyStack := by
  obtain ⟨a, built, judges⟩ := sample_judges_parentheses
  refine ⟨a, built, ?_, ?_, ?_⟩
  · obtain ⟨stops, -, -⟩ := judges ['(', ')', ')', '('] ⟨5, 5, none⟩ .still rfl (by decide)
      (by decide)
    exact (stops 2 (by decide) (by decide)).1
  · obtain ⟨-, left, -⟩ := judges ['(', '(', ')'] ⟨4, 4, none⟩ .still rfl (by decide) (by decide)
    exact (left (not_faulty_of_lt (by decide)) (by decide)).1
  · obtain ⟨-, -, closed⟩ := judges ['(', '(', ')', ')'] ⟨5, 5, none⟩ .still rfl (by decide)
      (by decide)
    exact (closed (not_faulty_of_lt (by decide)) (by decide)).2.1

end Pushdown
