import Mathlib.Algebra.Group.Action.Defs
import Mathlib.Algebra.GroupWithZero.Nat
import Mathlib.Algebra.Order.BigOperators.Group.List
import Mathlib.Algebra.Order.Group.Nat
import Pushdown.Proofs.Deepening
import Pushdown.Proofs.Lookups
import Pushdown.Proofs.Reaching
import Pushdown.Proofs.Retracing

/-!
# Measures

Where every move lowers a rank, no path is longer than the rank of its first configuration allows;
and where a configuration weighs more than all that its moves lead to, no more paths are opened than
its weight. A budget that has room for both is never met, so that the run decides the language.

`Forks` is a condition on transitions under which weights are easy to compare: at most one move of a
configuration reads, and at most one does not.
-/

namespace Pushdown

open Search

variable {a : Automaton} {word : Word} {registered : List Transition} {budget : Budget}
  {clock : Clock}

/-- Every move lowers the rank, and a configuration weighs more than all that its moves lead to. -/
structure Automaton.Measured (a : Automaton) (word : Word) (rank weight : Configuration → Nat) :
    Prop where
  rank_lt : ∀ {c c'}, a.Moves word c c' → rank c' < rank c
  weight_lt : ∀ c, ((a.moves word c).map (weight ·.configuration)).sum < weight c

/-! ### What measures bound -/

theorem Computation.length_add_rank_le {rank : Configuration → Nat} {steps : List Step}
    {c : Configuration} (lowers : ∀ {c c'}, a.Moves word c c' → rank c' < rank c)
    (h : Computation a word steps c) :
    steps.length + rank c ≤ rank a.initialConfiguration + 1 := by
  induction h with
  | start => simp [Nat.add_comm]
  | move _ move ih =>
    have := lowers ⟨_, move⟩
    simp only [List.length_append, List.length_singleton]
    omega

theorem Search.length_preorder_le {moves : Configuration → List Step}
    {weight : Configuration → Nat}
    (pays : ∀ c, ((moves c).map (weight ·.configuration)).sum < weight c) (room : Nat)
    (step : Step) (path : Path) :
    (preorder moves room step path).length ≤ weight step.configuration := by
  induction room generalizing step path with
  | zero =>
    have := pays step.configuration
    simp only [preorder, List.length_singleton]
    omega
  | succ room ih =>
    have below : ((fresh moves step path).map fun next =>
        (preorder moves room next (step :: path)).length).sum ≤
          ((moves step.configuration).map (weight ·.configuration)).sum := by
      calc _ ≤ ((fresh moves step path).map (weight ·.configuration)).sum :=
            List.sum_le_sum fun next _ => ih next (step :: path)
        _ ≤ _ := (List.filter_sublist.map _).sum_le_sum fun _ _ => Nat.zero_le _
    have := pays step.configuration
    simp only [preorder, List.length_cons, List.length_flatMap]
    omega

namespace Automaton.Measured

variable {rank weight : Configuration → Nat}

theorem not_cut (measured : a.Measured word rank weight) (built : a.Built registered)
    {maxDepth : Nat} (deep : rank a.initialConfiguration < maxDepth) :
    ¬ Cut a word (maxDepth - 1 + 1) (a.paths word maxDepth) := by
  rw [built.cut_iff]
  rintro ⟨steps, c, computed, -, length⟩
  have := computed.length_add_rank_le measured.rank_lt
  omega

theorem steps_le (measured : a.Measured word rank weight) (untimed : budget.timeout = none)
    (enough : weight a.initialConfiguration ≤ budget.maxSteps) :
    (a.run word budget clock).steps ≤ budget.maxSteps :=
  (run_ending untimed).steps_le ((length_preorder_le measured.weight_lt _ _ _).trans enough)

/-- A budget with room for the rank and the weight of the first configuration is never met. -/
theorem conclusive (measured : a.Measured word rank weight) (built : a.Built registered)
    (untimed : budget.timeout = none) (deep : rank a.initialConfiguration < budget.maxDepth)
    (enough : weight a.initialConfiguration ≤ budget.maxSteps) :
    (a.run word budget clock).verdict ≠ .rejected .outOfBudget ∧
      ((∃ criterion, (a.run word budget clock).verdict = .accepted criterion) ↔
        word ∈ a.language) :=
  (run_ending untimed).conclusive built (measured.not_cut built deep)
    (measured.steps_le untimed enough)

end Automaton.Measured

/-! ### Automata that fork -/

/-- No configuration fits both keys. -/
def Transition.Key.Apart (k k' : Transition.Key) : Prop :=
  k.state ≠ k'.state ∨
    k.reads.isSome ∧ k'.reads.isSome ∧ k.reads ≠ k'.reads ∨
    k.pops.isSome ∧ k'.pops.isSome ∧ k.pops ≠ k'.pops

instance (k k' : Transition.Key) : Decidable (k.Apart k') := inferInstanceAs (Decidable (_ ∨ _))

theorem Transition.Key.Apart.not_matches {k k' : Transition.Key} {state : State}
    {next top : Option Symbol} (apart : k.Apart k') (fits : k.Matches state next top) :
    ¬ k'.Matches state next top := by
  rintro ⟨state', reads', pops'⟩
  obtain ⟨state, reads, pops⟩ := fits
  rcases apart with differ | ⟨some, some', differ⟩ | ⟨some, some', differ⟩
  · exact differ (state.trans state'.symm)
  · apply differ
    rw [reads.resolve_left (Option.isSome_iff_ne_none.mp some),
      reads'.resolve_left (Option.isSome_iff_ne_none.mp some')]
  · apply differ
    rw [pops.resolve_left (Option.isSome_iff_ne_none.mp some),
      pops'.resolve_left (Option.isSome_iff_ne_none.mp some')]

theorem length_le_one_of_apart {found : List Transition} {state : State} {next top : Option Symbol}
    (apart : found.Pairwise fun t t' => t.key.Apart t'.key)
    (fits : ∀ t ∈ found, t.key.Matches state next top) : found.length ≤ 1 := by
  match found with
  | [] | [_] => simp
  | t :: t' :: _ =>
    obtain ⟨distinct, -⟩ := List.pairwise_cons.mp apart
    have differ := distinct t' List.mem_cons_self
    exact absurd (fits t' (by simp)) (differ.not_matches (fits t (by simp)))

/-- No two transitions that read fit one configuration, and no two that read nothing do. -/
def Forks (registered : List Transition) : Prop :=
  registered.Pairwise fun t t' => t.key.reads.isSome = t'.key.reads.isSome → t.key.Apart t'.key

instance (registered : List Transition) : Decidable (Forks registered) :=
  inferInstanceAs (Decidable (List.Pairwise _ registered))

namespace Forks

theorem length_matching_le (forks : Forks registered) (state : State) (next top : Option Symbol)
    (reading : Bool) :
    ((registered.filter (·.key.Matches state next top)).filter
      (·.key.reads.isSome == reading)).length ≤ 1 := by
  have apart := (List.Pairwise.filter (·.key.Matches state next top) forks).filter
    (·.key.reads.isSome == reading)
  have fits : ∀ t ∈ (registered.filter (·.key.Matches state next top)).filter
      (·.key.reads.isSome == reading),
      t.key.Matches state next top ∧ t.key.reads.isSome = reading := by
    intro t member
    simp only [List.mem_filter, decide_eq_true_eq, beq_iff_eq] at member
    exact ⟨member.1.2, member.2⟩
  apply length_le_one_of_apart (apart.imp_of_mem ?_) fun t member => (fits t member).1
  intro t t' member member' distinct
  exact distinct ((fits t member).2.trans (fits t' member').2.symm)

theorem length_moves_le (forks : Forks registered) (built : a.Built registered)
    (c : Configuration) (reading : Bool) :
    ((a.moves word c).filter (·.reads.isSome == reading)).length ≤ 1 := by
  have perm : ((a.moves word c).map Step.transition).Perm
      ((registered.filter (·.key.Matches c.state word[c.cursor]? c.stack.top)).map some) := by
    rw [built.transitions_moves, built.table_eq]
    exact (Table.lookup_ofTransitions_perm registered c.state _ _).map some
  have same := perm.countP_eq fun t => (t.bind (·.key.reads)).isSome == reading
  rw [List.countP_map, List.countP_map] at same
  rw [← List.countP_eq_length_filter]
  calc _ = _ := same
    _ = _ := List.countP_eq_length_filter
    _ ≤ 1 := forks.length_matching_le _ _ _ reading

/-- All that the moves of a configuration lead to weighs no more than what the one that reads leads
to and what the other leads to. -/
theorem sum_moves_le (forks : Forks registered) (built : a.Built registered) {c : Configuration}
    {weight : Configuration → Nat} (read silent : Nat)
    (bounded : ∀ c', a.Moves word c c' →
      weight c' ≤ if c.cursor < c'.cursor then read else silent) :
    ((a.moves word c).map (weight ·.configuration)).sum ≤ read + silent := by
  have each : ∀ reading : Bool, (((a.moves word c).filter (·.reads.isSome == reading)).map
      (weight ·.configuration)).sum ≤ if reading then read else silent := by
    intro reading
    have few : ((a.moves word c).filter (·.reads.isSome == reading)).length ≤ 1 :=
      forks.length_moves_le built c reading
    have small : ∀ step ∈ (a.moves word c).filter (·.reads.isSome == reading),
        weight step.configuration ≤ if reading then read else silent := by
      intro step member
      obtain ⟨among, kind⟩ := List.mem_filter.mp member
      obtain ⟨t, carried, move⟩ := built.mem_moves.mp among
      have := bounded _ ⟨t, move⟩
      obtain ⟨-, cursor⟩ := reads_iff.mp move.reads
      simp only [Step.reads, carried, Option.bind_some, beq_iff_eq] at kind
      rw [cursor, kind] at this
      cases reading <;> simpa using this
    have sum := List.sum_le_card_nsmul _ _ (List.forall_mem_map.mpr small)
    rw [List.length_map, smul_eq_mul] at sum
    exact sum.trans ((Nat.mul_le_mul_right _ few).trans_eq (Nat.one_mul _))
  -- The moves are those that read and those that do not, though not in this order.
  have both := (List.filter_append_perm (·.reads.isSome) (a.moves word c)).map
    (weight ·.configuration)
  have first := each true
  have second := each false
  simp only [beq_true, beq_false, if_true, Bool.false_eq_true, if_false] at first second
  rw [← both.sum_eq, List.map_append, List.sum_append]
  omega

/-- It is enough to weigh more than what a move that reads may lead to and what another may. -/
theorem measured (forks : Forks registered) (built : a.Built registered)
    {rank weight : Configuration → Nat} (read silent : Configuration → Nat)
    (lowers : ∀ {c c'}, a.Moves word c c' → rank c' < rank c)
    (bounded : ∀ {c c'}, a.Moves word c c' →
      weight c' ≤ if c.cursor < c'.cursor then read c else silent c)
    (pays : ∀ c, read c + silent c < weight c) : a.Measured word rank weight where
  rank_lt := lowers
  weight_lt c := (forks.sum_moves_le built (read c) (silent c) fun _ => bounded).trans_lt (pays c)

end Forks

end Pushdown
