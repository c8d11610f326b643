import Mathlib.Computability.Language
import Pushdown.Proofs.LegalMoves

/-!
# Computations and languages

A computation is a finite sequence of legal moves from the initial configuration; it may come back
to where it was. `exists_simple` takes the detours out of it.
-/

namespace Pushdown

/-- The steps of a computation, and the configuration that it ends in. -/
inductive Computation (a : Automaton) (word : Word) : List Step → Configuration → Prop where
  | start : Computation a word [⟨a.initialConfiguration, none⟩] a.initialConfiguration
  | move {steps : List Step} {c c' : Configuration} {t : Transition} :
    Computation a word steps c → Move a word c t c' →
      Computation a word (steps ++ [⟨c', some t⟩]) c'

def Acceptance.Admits : Acceptance → Criterion → Prop
  | .finalState, criterion => criterion = .finalState
  | .emptyStack, criterion => criterion = .emptyStack
  | .either, _ => True

def Criterion.Holds (a : Automaton) (c : Configuration) : Criterion → Prop
  | .finalState => c.state ∈ a.finalStates
  | .emptyStack => c.stack.toList = []

structure Accepting (a : Automaton) (word : Word) (c : Configuration) (criterion : Criterion) :
    Prop where
  finished : c.cursor = word.length
  admitted : a.acceptance.Admits criterion
  holds : criterion.Holds a c

/-- The words on which some computation, of any length, ends in an accepting configuration. -/
def Automaton.language (a : Automaton) : Language Symbol :=
  {word | ∃ steps c criterion, Computation a word steps c ∧ Accepting a word c criterion}

/-! ### What an automaton makes of a configuration -/

def Criterion.met (inFinalState stackEmpty : Bool) : Criterion → Bool
  | .finalState => inFinalState
  | .emptyStack => stackEmpty

theorem judge_eq_some {mode : Acceptance} {inFinalState stackEmpty : Bool} {criterion : Criterion}
    (judged : mode.judge inFinalState stackEmpty = some criterion) :
    mode.Admits criterion ∧ criterion.met inFinalState stackEmpty = true := by
  cases mode <;> cases criterion <;> cases inFinalState <;> cases stackEmpty <;>
    simp_all [Acceptance.judge, Acceptance.Admits, Criterion.met]

theorem judge_ne_none {mode : Acceptance} {inFinalState stackEmpty : Bool} {criterion : Criterion}
    (admitted : mode.Admits criterion) (met : criterion.met inFinalState stackEmpty = true) :
    mode.judge inFinalState stackEmpty ≠ none := by
  cases mode <;> cases criterion <;> cases inFinalState <;> cases stackEmpty <;>
    simp_all [Acceptance.judge, Acceptance.Admits, Criterion.met]

theorem Criterion.holds_iff {a : Automaton} {c : Configuration} {criterion : Criterion} :
    criterion.Holds a c ↔ criterion.met (a.isFinal c.state) c.stack.isEmpty = true := by
  cases criterion with
  | finalState => simp [Criterion.Holds, Criterion.met, Automaton.isFinal]
  | emptyStack => simp [Criterion.Holds, Criterion.met, Stack.isEmpty_iff]

theorem accepting_of_accepts? {a : Automaton} {word : Word} {c : Configuration}
    {criterion : Criterion} (accepts : a.accepts? word c = some criterion) :
    Accepting a word c criterion := by
  obtain ⟨finished, judged⟩ : c.cursor = word.length ∧ a.evaluate c = some criterion := by
    simpa [Automaton.accepts?, Option.ite_none_right_eq_some] using accepts
  obtain ⟨admitted, met⟩ := judge_eq_some judged
  exact ⟨finished, admitted, Criterion.holds_iff.mpr met⟩

theorem accepts?_ne_none {a : Automaton} {word : Word} {c : Configuration} {criterion : Criterion}
    (accepting : Accepting a word c criterion) : a.accepts? word c ≠ none := by
  rw [Automaton.accepts?, if_pos accepting.finished]
  exact judge_ne_none accepting.admitted (Criterion.holds_iff.mp accepting.holds)

/-! ### Computations without detours -/

namespace Computation

variable {a : Automaton} {word : Word} {steps : List Step} {c c' : Configuration}

theorem ne_nil (h : Computation a word steps c) : steps ≠ [] := by
  cases h <;> simp

/-- A computation passes through all its configurations by computations of its own. -/
theorem upTo (h : Computation a word steps c) (passed : c' ∈ steps.map Step.configuration) :
    ∃ before, Computation a word before c' ∧ before <+: steps := by
  induction h with
  | start =>
    obtain rfl : c' = a.initialConfiguration := by simpa using passed
    exact ⟨_, .start, List.prefix_refl _⟩
  | @move steps c next t h move ih =>
    rw [List.map_append, List.mem_append] at passed
    rcases passed with earlier | last
    · obtain ⟨before, computed, initial⟩ := ih earlier
      exact ⟨before, computed, initial.trans (List.prefix_append _ _)⟩
    · obtain rfl : c' = next := by simpa using last
      exact ⟨_, h.move move, List.prefix_refl _⟩

/-- What can be computed can be computed without meeting a configuration twice. -/
theorem exists_simple (h : Computation a word steps c) :
    ∃ simple, Computation a word simple c ∧ (simple.map Step.configuration).Nodup ∧
      simple.length ≤ steps.length := by
  induction h with
  | start => exact ⟨_, .start, by simp, Nat.le_refl _⟩
  | @move steps c c' t _ move ih =>
    obtain ⟨simple, computed, distinct, short⟩ := ih
    -- If the move comes back to where the computation has been, what lies between is dropped.
    by_cases met : c' ∈ simple.map Step.configuration
    · obtain ⟨before, computed', initial⟩ := computed.upTo met
      refine ⟨before, computed', ?_, ?_⟩
      · exact distinct.sublist (initial.sublist.map _)
      · have := initial.length_le
        rw [List.length_append]
        omega
    · refine ⟨_, computed.move move, ?_, by simpa using short⟩
      rw [List.map_append, List.nodup_append]
      refine ⟨distinct, by simp, ?_⟩
      intro x member y new same
      obtain rfl : y = c' := by simpa using new
      exact met (same ▸ member)

end Computation

end Pushdown
