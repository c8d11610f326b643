import Pushdown.Proofs.Computations

/-!
# Confined configurations

What a computation meets is bounded by what its automaton is made of: states that moves lead to,
symbols that they push, and the part of the word that they can read.
-/

namespace Pushdown

namespace Computation

variable {a : Automaton} {word : Word} {steps : List Step} {c : Configuration}

/-- What holds of the names that a run starts from and of those that moves lead to, holds of all
names in a computation. -/
theorem confined {P : State → Prop} {Q : Symbol → Prop} (h : Computation a word steps c)
    (initialState : P a.initialState) (bottom : ∀ x ∈ a.bottom, Q x)
    (moves : ∀ t : Transition, t.target ∈ a.table.get t.key →
      P t.target.destination ∧ ∀ x ∈ t.target.pushes, Q x) :
    P c.state ∧ ∀ x ∈ c.stack.toList, Q x := by
  induction h with
  | start =>
    refine ⟨initialState, ?_⟩
    simpa [Automaton.initialConfiguration] using bottom
  | @move steps c c' t _ move ih =>
    obtain ⟨destination, pushes⟩ := moves t move.registered
    obtain ⟨below, popped, symbols⟩ := move.replaces
    refine ⟨move.enters ▸ destination, ?_⟩
    intro x member
    rw [symbols, List.mem_append, List.mem_reverse] at member
    rcases member with pushed | kept
    · exact pushes x pushed
    · exact ih.2 x (popped.subset kept)

/-- No computation gets past a position whose symbol no transition reads. -/
theorem cursor_le_of_unread (h : Computation a word steps c) {position : Nat}
    (unread : ∀ t : Transition, t.target ∈ a.table.get t.key →
      t.key.reads = none ∨ t.key.reads ≠ word[position]?) : c.cursor ≤ position := by
  induction h with
  | start => exact Nat.zero_le _
  | @move steps c c' t _ move ih =>
    have unread := unread t move.registered
    have reads := move.reads
    generalize t.key.reads = symbol at unread reads
    generalize c'.cursor = cursor at reads ⊢
    cases reads with
    | nothing => exact ih
    | next found =>
      refine Nat.lt_of_le_of_ne ih ?_
      rintro rfl
      exact unread.resolve_left nofun found.symm

theorem cursor_le (h : Computation a word steps c) : c.cursor ≤ word.length := by
  apply h.cursor_le_of_unread
  intro t _
  rw [List.getElem?_eq_none (Nat.le_refl _)]
  exact em _

end Computation

end Pushdown
