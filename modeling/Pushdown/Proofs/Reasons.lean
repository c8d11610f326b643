import Pushdown.Proofs.Confinement
import Pushdown.Proofs.Lookups

/-!
# Reasons for rejection

`Describes` says what a reason states about the configuration that a trace ends in. A run that
rejects for another reason than its budget names the one reason that describes the end of its
trace: that path was left at last, and nothing that was entered later replaced its reason.
-/

namespace Pushdown

open Search

variable {a : Automaton} {word : Word} {registered : List Transition} {budget : Budget}
  {clock : Clock}

/-- What a reason states about the last configuration of a trace. -/
def RejectReason.Describes (a : Automaton) (trace : Trace) (c : Configuration) :
    RejectReason → Prop
  | .stuck cursor => c.cursor = cursor ∧ cursor < trace.word.length ∧
      a.table.lookup c.state trace.word[cursor]? c.stack.top = []
  | .circling cursor => c.cursor = cursor ∧ cursor < trace.word.length ∧
      (∀ t c', Move a trace.word c t c' → t.key.reads = none) ∧
      (∃ t c', Move a trace.word c t c' ∧ t.key.reads = none) ∧
      ∀ t c', Move a trace.word c t c' → t.key.reads = none →
        c' ∈ trace.steps.map Step.configuration
  | .stackLeft => c.cursor = trace.word.length ∧ a.acceptance = .emptyStack ∧ c.stack.toList ≠ []
  | .notFinal => c.cursor = trace.word.length ∧ c.state ∉ a.finalStates ∧
      (a.acceptance = .finalState ∨ a.acceptance = .either ∧ c.stack.toList ≠ [])
  | .outOfBudget => False

/-! ### The path that a rejection shows -/

/-- A rejection for another reason than the budget shows a path that may be opened, that has no move
off it and is not accepted, and gives the reason that holds at its end. -/
theorem run_rejected_at {reason : RejectReason}
    (rejected : (a.run word budget clock).verdict = .rejected reason)
    (conclusive : reason ≠ .outOfBudget) :
    ∃ step path, step :: path ∈ a.paths word budget.maxDepth ∧
      fresh (a.moves word) step path = [] ∧ a.accepts? word step.configuration = none ∧
      reason = reasonAt a word step ∧
      (a.run word budget clock).trace = ⟨word, (step :: path).reverse⟩ := by
  rw [Automaton.run] at rejected ⊢
  cases searched : search a word budget clock with
  | mk outcome known =>
    rw [searched] at rejected
    cases outcome with
    | accepted => cases rejected
    | abandoned =>
      obtain rfl := Verdict.rejected.inj rejected
      exact absurd rfl conclusive
    | exhausted =>
      obtain ⟨unaccepted, -, -, step, path, last, dead, ends⟩ := search_exhausted searched
      simp only [Run.ofSearch, dead, Option.getD_some] at rejected ⊢
      have uncut : ¬ known.wasCut = true := by
        intro cut
        rw [if_pos cut] at rejected
        exact conclusive (Verdict.rejected.inj rejected).symm
      rw [if_neg uncut] at rejected
      have member := List.mem_of_getLast? last
      exact ⟨step, path, member, ends.resolve_left uncut, unaccepted _ member,
        (Verdict.rejected.inj rejected).symm, rfl⟩

/-! ### What holds at its end -/

theorem Move.cursor_le {c c' : Configuration} {t : Transition} (move : Move a word c t c') :
    c.cursor ≤ c'.cursor := by
  obtain ⟨-, advance⟩ := reads_iff.mp move.reads
  rw [advance]
  split
  · exact Nat.le_succ _
  · exact Nat.le_refl _

theorem Computation.cursor_le_last {steps : List Step} {c c' : Configuration}
    (h : Computation a word steps c) (passed : c' ∈ steps.map Step.configuration) :
    c'.cursor ≤ c.cursor := by
  induction h with
  | start =>
    obtain rfl : c' = a.initialConfiguration := by simpa using passed
    exact Nat.le_refl _
  | @move steps c next t h move ih =>
    rw [List.map_append, List.mem_append] at passed
    rcases passed with earlier | last
    · exact (ih earlier).trans move.cursor_le
    · obtain rfl : c' = next := by simpa using last
      exact Nat.le_refl _

/-- A move that goes back to where a computation has been does not read. -/
theorem Computation.reads_eq_none {steps : List Step} {c c' : Configuration} {t : Transition}
    (h : Computation a word steps c) (move : Move a word c t c')
    (back : c' ∈ steps.map Step.configuration) : t.key.reads = none := by
  have behind := h.cursor_le_last back
  obtain ⟨-, advance⟩ := reads_iff.mp move.reads
  cases reads : t.key.reads with
  | none => rfl
  | some x =>
    rw [advance, reads, Option.isSome_some, if_pos rfl] at behind
    omega

namespace Automaton.Built

theorem exists_move_iff (built : a.Built registered) {c : Configuration} :
    (∃ t c', Move a word c t c') ↔ a.moves word c ≠ [] := by
  constructor
  · rintro ⟨t, c', move⟩
    have member : ⟨c', some t⟩ ∈ a.moves word c := built.mem_moves.mpr ⟨t, rfl, move⟩
    exact List.ne_nil_of_mem member
  · intro some
    obtain ⟨step, member⟩ := List.exists_mem_of_ne_nil _ some
    obtain ⟨t, -, move⟩ := built.mem_moves.mp member
    exact ⟨t, _, move⟩

/-- No move is possible exactly when nothing is looked up, since all that is looked up fires. -/
theorem moves_eq_nil_iff (built : a.Built registered) {c : Configuration} :
    a.moves word c = [] ↔ a.table.lookup c.state word[c.cursor]? c.stack.top = [] := by
  rw [← List.map_eq_nil_iff (f := Step.transition), built.transitions_moves, List.map_eq_nil_iff]

theorem back_of_fresh_eq_nil (built : a.Built registered) {step : Step} {path : Path}
    (stuck : fresh (a.moves word) step path = []) {t : Transition} {c' : Configuration}
    (move : Move a word step.configuration t c') :
    c' ∈ (step :: path).map Step.configuration := by
  by_contra new
  have among : (⟨c', some t⟩ : Step) ∈ fresh (a.moves word) step path :=
    built.mem_fresh.mpr ⟨⟨t, rfl, move⟩, new⟩
  rw [stuck] at among
  cases among

end Automaton.Built

/-! ### The reason that describes it -/

/-- The only reason that can describe a configuration is the one that is given there. -/
theorem RejectReason.Describes.eq_diagnose (built : a.Built registered) {trace : Trace}
    {c : Configuration} {reason : RejectReason} (describes : reason.Describes a trace c) :
    reason = a.diagnose c trace.word.length (!(a.moves trace.word c).isEmpty) := by
  cases reason with
  | stuck cursor =>
    obtain ⟨rfl, inside, none⟩ := describes
    rw [← built.moves_eq_nil_iff] at none
    simp [Automaton.diagnose, inside, none]
  | circling cursor =>
    obtain ⟨rfl, inside, -, ⟨t, c', move, -⟩, -⟩ := describes
    have some := built.exists_move_iff.mp ⟨t, c', move⟩
    simp [Automaton.diagnose, inside, some]
  | stackLeft =>
    obtain ⟨finished, mode, -⟩ := describes
    simp [Automaton.diagnose, finished, mode]
  | notFinal =>
    obtain ⟨finished, -, mode | ⟨mode, -⟩⟩ := describes <;>
      simp [Automaton.diagnose, finished, mode]
  | outOfBudget => exact describes.elim

/-- The reason that is given at the end of a path describes it, if the path is not accepted and all
moves there lead back onto it. -/
theorem describes_diagnose (built : a.Built registered) {steps : List Step} {c : Configuration}
    (h : Computation a word steps c) (rejected : a.accepts? word c = none)
    (back : ∀ t c', Move a word c t c' → c' ∈ steps.map Step.configuration) :
    (a.diagnose c word.length (!(a.moves word c).isEmpty)).Describes a ⟨word, steps⟩ c := by
  have unread : ∀ t c', Move a word c t c' → t.key.reads = none :=
    fun t c' move => h.reads_eq_none move (back t c' move)
  unfold Automaton.diagnose
  by_cases inside : c.cursor < word.length
  · rw [if_pos inside]
    by_cases none : a.moves word c = []
    · rw [none]
      exact ⟨rfl, inside, built.moves_eq_nil_iff.mp none⟩
    · obtain ⟨t, c', move⟩ := built.exists_move_iff.mpr none
      rw [if_pos (by simpa using none)]
      exact ⟨rfl, inside, unread, ⟨t, c', move, unread t c' move⟩,
        fun t c' move _ => back t c' move⟩
  · have finished : c.cursor = word.length := Nat.le_antisymm h.cursor_le (Nat.le_of_not_lt inside)
    -- Neither criterion holds that the mode admits.
    have fails : ∀ criterion, a.acceptance.Admits criterion → ¬ criterion.Holds a c :=
      fun criterion admitted holds => accepts?_ne_none ⟨finished, admitted, holds⟩ rejected
    rw [if_neg inside]
    cases mode : a.acceptance with
    | finalState =>
      rw [mode] at fails
      exact ⟨finished, fails .finalState rfl, Or.inl mode⟩
    | emptyStack =>
      rw [mode] at fails
      exact ⟨finished, mode, fails .emptyStack rfl⟩
    | either =>
      rw [mode] at fails
      exact ⟨finished, fails .finalState trivial, Or.inr ⟨mode, fails .emptyStack trivial⟩⟩

/-- A run that rejects for another reason than its budget tells the truth about the configuration
that its trace ends in: its reason describes it and no other reason does. All moves from there lead
back onto the trace. -/
theorem reject_reason_describes_last (built : a.Built registered) (word : Word) (budget : Budget)
    (clock : Clock) {reason : RejectReason}
    (rejected : (a.run word budget clock).verdict = .rejected reason)
    (conclusive : reason ≠ .outOfBudget) :
    let trace := (a.run word budget clock).trace
    trace.word = word ∧ ∃ c, trace.last? = some c ∧
      (∀ other : RejectReason, other = reason ↔ other.Describes a trace c) ∧
      ∀ t c', Move a word c t c' → c' ∈ trace.steps.map Step.configuration := by
  obtain ⟨step, path, member, stuck, unaccepted, rfl, shown⟩ := run_rejected_at rejected conclusive
  obtain ⟨⟨c, h⟩, -⟩ := built.mem_paths.mp member
  obtain rfl := h.configuration_eq
  have back : ∀ t c', Move a word step.configuration t c' →
      c' ∈ (step :: path).reverse.map Step.configuration := by
    intro t c' move
    rw [List.map_reverse, List.mem_reverse]
    exact built.back_of_fresh_eq_nil stuck move
  rw [shown]
  refine ⟨rfl, step.configuration, by simp [Trace.last?], ?_, back⟩
  intro other
  constructor
  · rintro rfl
    exact describes_diagnose built h unaccepted back
  · exact fun describes => describes.eq_diagnose built

/-- On `aa`, `Automaton.roundabout` leaves its detour last. There it has one move, which goes back
to where it came from. -/
theorem reject_reason_describes_last_roundabout :
    let run := Automaton.roundabout.run ['a', 'a'] .standard .still
    let detour : Configuration := ⟨"r", 0, .ofWord ['X']⟩
    run.verdict = .rejected (.circling 0) ∧ run.trace.last? = some detour ∧
    (RejectReason.circling 0).Describes .roundabout run.trace detour ∧
    ¬ (RejectReason.stuck 0).Describes .roundabout run.trace detour := by
  intro run detour
  have rejected : run.verdict = .rejected (.circling 0) := by decide +kernel
  have last : run.trace.last? = some detour := by decide +kernel
  obtain ⟨-, c, ends, describes, -⟩ := reject_reason_describes_last Automaton.roundabout_built
    ['a', 'a'] .standard .still rejected nofun
  obtain rfl : c = detour := Option.some.inj (ends.symm.trans last)
  exact ⟨rejected, last, (describes _).mp rfl, (describes _).not.mp nofun⟩

end Pushdown
