import Mathlib.Data.List.Induction
import Pushdown.Automaton.Editing
import Pushdown.Proofs.FrozenDrafts
import Pushdown.Proofs.Listings

/-!
# Histories of edits

A draft is edited where it stands, and an edit may be refused at any point of a history. A refused
edit leaves nothing behind, so a history comes to its granted edits, and what holds of assembled
drafts holds of every draft that a history leads to.
-/

namespace Pushdown

namespace Draft

/-! ### One edit -/

/-- A method changes the draft once nothing can fail any more. -/
structure Guarded (method : Editing Unit) (check : Draft → Except Error Unit)
    (change : Draft → Draft) : Prop where
  run_eq : ∀ d, method.run.run d =
    match check d with
    | .ok _ => (.ok (), change d)
    | .error e => (.error e, d)

section Guarded

variable {method next : Editing Unit} {check check' : Draft → Except Error Unit}
  {change : Draft → Draft}

theorem guarded_ask (check : Draft → Except Error Unit) : Guarded (ask check) check id where
  run_eq d := by
    show (MonadExcept.ofExcept (check d) : Editing Unit).run.run d = _
    cases check d <;> rfl

theorem Guarded.after (first : Guarded method check id) (rest : Guarded next check' change) :
    Guarded (method >>= fun _ => next) (fun d => check d >>= fun _ => check' d) change where
  run_eq d := by
    rw [ExceptT.run_bind, StateT.run_bind, first.run_eq]
    cases check d with
    | ok _ => exact rest.run_eq d
    | error e => rfl

theorem Guarded.andModify (checks : Guarded method check id) (change : Draft → Draft) :
    Guarded (method >>= fun _ => modify change) check change where
  run_eq d := by
    rw [ExceptT.run_bind, StateT.run_bind, checks.run_eq]
    cases check d <;> rfl

theorem guarded_forM_option {α : Type} (check : α → Draft → Except Error Unit)
    (found : Option α) :
    Guarded (found.forM fun x => ask (check x)) (fun d => found.forM fun x => check x d) id := by
  cases found with
  | none => exact ⟨fun _ => rfl⟩
  | some x => exact guarded_ask (check x)

theorem guarded_forM_list {α : Type} (check : α → Draft → Except Error Unit) (xs : List α) :
    Guarded (xs.forM fun x => ask (check x)) (fun d => xs.forM fun x => check x d) id := by
  induction xs with
  | nil => exact ⟨fun _ => rfl⟩
  | cons x xs ih => exact (guarded_ask (check x)).after ih

end Guarded

theorem guarded_perform (edit : Edit) :
    Guarded (perform edit) (permits · edit) (enter · edit) := by
  cases edit with
  | addState | addInputSymbol | addStackSymbol | setAcceptance => exact ⟨fun _ => rfl⟩
  | setInitialState | addFinalState | setBottom => exact (guarded_ask _).andModify _
  | addRule rule =>
    exact (guarded_ask _).after <| (guarded_ask _).after <|
      (guarded_forM_option _ _).after <| (guarded_forM_option _ _).after <|
        (guarded_forM_list _ _).andModify _

/-! ### A history of edits -/

/-- Goes through a history of edits, past those that are refused, and collects the answers. -/
def performAll (edits : List Edit) : StateM Draft (List (Except Error Unit)) :=
  edits.mapM fun edit => (perform edit).run

def granted : List Edit → List (Except Error Unit) → List Edit
  | edit :: edits, .ok _ :: answers => edit :: granted edits answers
  | _ :: edits, .error _ :: answers => granted edits answers
  | _, _ => []

theorem performAll_nil (d : Draft) : (performAll []).run d = ([], d) := rfl

theorem performAll_cons (edit : Edit) (edits : List Edit) (d : Draft) :
    (performAll (edit :: edits)).run d =
      match d.permits edit with
      | .ok _ => ((performAll edits).run (d.enter edit)).map (.ok () :: ·) id
      | .error e => ((performAll edits).run d).map (.error e :: ·) id := by
  unfold performAll
  rw [List.mapM_cons, StateT.run_bind, (guarded_perform edit).run_eq]
  cases d.permits edit <;> rfl

theorem applyAll_granted (edits : List Edit) (d : Draft) :
    d.applyAll (granted edits ((performAll edits).run d).1) = .ok ((performAll edits).run d).2 := by
  induction edits generalizing d with
  | nil => rfl
  | cons edit edits ih =>
    rw [performAll_cons]
    cases permitted : d.permits edit with
    | error e =>
      -- A refused edit leaves the draft as it was, so the history goes on from there.
      exact ih d
    | ok _ =>
      have applied : d.apply edit = .ok (d.enter edit) := by rw [apply_eq, permitted]; rfl
      show d.apply edit >>= _ = _
      rw [applied]
      exact ih (d.enter edit)

theorem performAll_of_applyAll {edits : List Edit} {d d' : Draft}
    (applied : d.applyAll edits = .ok d') :
    (performAll edits).run d = (edits.map fun _ => .ok (), d') := by
  induction edits generalizing d with
  | nil => rw [performAll_nil, Except.ok.inj applied]; rfl
  | cons edit edits ih =>
    obtain ⟨next, first, rest⟩ := bind_eq_ok.mp applied
    rw [apply_eq, check_then_eq_ok] at first
    obtain ⟨permitted, entered⟩ := first
    obtain rfl := Except.ok.inj entered
    rw [performAll_cons, permitted]
    show ((performAll edits).run (d.enter edit)).map _ id = _
    rw [ih rest]
    rfl

/-- Declarations are never refused. -/
theorem mem_granted (edit : Edit) (declares : edit.Declares) (edits : List Edit) (d : Draft) :
    edit ∈ granted edits ((performAll edits).run d).1 ↔ edit ∈ edits := by
  induction edits generalizing d with
  | nil => exact Iff.rfl
  | cons first edits ih =>
    rw [performAll_cons, List.mem_cons]
    cases permitted : d.permits first with
    | ok _ => exact List.mem_cons.trans (or_congr_right (ih _))
    | error e =>
      have other : edit ≠ first := by
        rintro rfl
        rw [permits_of_declares declares] at permitted
        cases permitted
      exact (ih d).trans (or_iff_right other).symm

/-! ### The states of a draft, in order -/

def Edit.state? : Edit → Option State
  | .addState state => some state
  | _ => none

theorem filterMap_state_granted (edits : List Edit) (d : Draft) :
    (granted edits ((performAll edits).run d).1).filterMap Edit.state? =
      edits.filterMap Edit.state? := by
  induction edits generalizing d with
  | nil => rfl
  | cons edit edits ih =>
    rw [performAll_cons, List.filterMap_cons]
    cases permitted : d.permits edit with
    | ok _ =>
      have rest := ih (d.enter edit)
      show (edit :: granted edits _).filterMap Edit.state? = _
      rw [List.filterMap_cons]
      cases edit.state? with
      | none => exact rest
      | some state => exact congrArg (state :: ·) rest
    | error e =>
      have silent : edit.state? = none := by
        cases edit <;> first | rfl | cases permitted
      rw [silent]
      exact ih d

theorem states_enter (d : Draft) (edit : Edit) :
    (d.enter edit).states = edit.state?.elim d.states (insertNew d.states) := by
  cases edit <;> rfl

theorem states_foldl_enter (edits : List Edit) (d : Draft) :
    (edits.foldl enter d).states = (edits.filterMap Edit.state?).foldl insertNew d.states := by
  induction edits generalizing d with
  | nil => rfl
  | cons edit edits ih =>
    rw [List.foldl_cons, ih, states_enter, List.filterMap_cons]
    cases edit.state? <;> rfl

theorem foldl_insertNew {α : Type} [DecidableEq α] (xs : List α) :
    xs.foldl insertNew [] = xs.eraseDups := by
  induction xs using List.reverseRecOn with
  | nil => rfl
  | append_singleton xs x ih =>
    rw [List.foldl_append, ih, List.eraseDups_append]
    by_cases known : x ∈ xs <;> simp [insertNew, List.removeAll, known, List.eraseDups_cons]

theorem initialState_foldl_enter_eq_none (edits : List Edit) (d : Draft) :
    (edits.foldl enter d).initialState = none ↔
      d.initialState = none ∧ ∀ state, .setInitialState state ∉ edits := by
  induction edits generalizing d with
  | nil => simp
  | cons edit edits ih =>
    rw [List.foldl_cons, ih]
    cases edit with
    | setInitialState state =>
      constructor
      · rintro ⟨set, -⟩
        cases set
      · rintro ⟨-, unset⟩
        exact absurd List.mem_cons_self (unset state)
    | _ => simp [enter]

theorem Assembled.mem_transitions {d : Draft} {registered : List Transition}
    (h : Assembled d registered) (t : Transition) :
    t ∈ d.table.transitions ↔ t ∈ registered := by
  induction h with
  | blank => exact Iff.rfl
  | @edit d d' registered edit _ applied ih =>
    obtain ⟨-, table, -⟩ := apply_eq_ok applied
    rw [table]
    cases edit.transition? with
    | none => simpa using ih
    | some other => simp [ih]

theorem freeze_fails_iff (d : Draft) :
    (∃ e, d.freeze = .error e) ↔ d.states = [] ∨ d.initialState = none := by
  unfold freeze
  cases d.states <;> cases d.initialState <;> simp

/-! ### What a history leads to -/

structure Registers (edits : List Edit) (t : Transition) : Prop where
  origin : .addState t.key.state ∈ edits
  destination : .addState t.target.destination ∈ edits
  reads : ∀ x ∈ t.key.reads, .addInputSymbol x ∈ edits
  pops : ∀ x ∈ t.key.pops, .addStackSymbol x ∈ edits
  pushes : ∀ x ∈ t.target.pushes, .addStackSymbol x ∈ edits

structure RegisteredBy (d : Draft) (edits : List Edit) : Prop where
  states : ∀ state, state ∈ d.states ↔ .addState state ∈ edits
  inputAlphabet : ∀ x, x ∈ d.inputAlphabet ↔ .addInputSymbol x ∈ edits
  stackAlphabet : ∀ x, x ∈ d.stackAlphabet ↔ .addStackSymbol x ∈ edits

theorem RegisteredBy.knows_iff {d : Draft} {edits : List Edit} (names : d.RegisteredBy edits)
    (t : Transition) : d.Knows t ↔ Registers edits t := by
  constructor
  · rintro ⟨origin, destination, reads, pops, pushes⟩
    exact ⟨(names.states _).mp origin, (names.states _).mp destination,
      fun x named => (names.inputAlphabet x).mp (reads x named),
      fun x named => (names.stackAlphabet x).mp (pops x named),
      fun x named => (names.stackAlphabet x).mp (pushes x named)⟩
  · rintro ⟨origin, destination, reads, pops, pushes⟩
    exact ⟨(names.states _).mpr origin, (names.states _).mpr destination,
      fun x named => (names.inputAlphabet x).mpr (reads x named),
      fun x named => (names.stackAlphabet x).mpr (pops x named),
      fun x named => (names.stackAlphabet x).mpr (pushes x named)⟩

theorem performAll_eq_foldl (edits : List Edit) (d : Draft) :
    ((performAll edits).run d).2 = (granted edits ((performAll edits).run d).1).foldl enter d :=
  applyAll_eq_foldl (applyAll_granted edits d)

section History

variable (name : String) (acceptance : Acceptance) (edits : List Edit)

theorem foldl_enter_registeredBy :
    (edits.foldl enter (blank name acceptance)).RegisteredBy edits where
  states state := by
    rw [mem_foldl_enter mem_states_enter]
    simp [blank]
  inputAlphabet x := by
    rw [mem_foldl_enter mem_inputAlphabet_enter]
    simp [blank]
  stackAlphabet x := by
    rw [mem_foldl_enter mem_stackAlphabet_enter]
    simp [blank]

theorem performAll_registeredBy :
    ((performAll edits).run (blank name acceptance)).2.RegisteredBy edits := by
  obtain ⟨states, inputAlphabet, stackAlphabet⟩ := foldl_enter_registeredBy name acceptance
    (granted edits ((performAll edits).run (blank name acceptance)).1)
  rw [← performAll_eq_foldl] at states inputAlphabet stackAlphabet
  refine ⟨?_, ?_, ?_⟩
  · intro state
    exact (states state).trans (mem_granted (.addState state) trivial _ _)
  · intro x
    exact (inputAlphabet x).trans (mem_granted (.addInputSymbol x) trivial _ _)
  · intro x
    exact (stackAlphabet x).trans (mem_granted (.addStackSymbol x) trivial _ _)

theorem states_performAll :
    ((performAll edits).run (blank name acceptance)).2.states =
      (edits.filterMap Edit.state?).eraseDups := by
  rw [performAll_eq_foldl, states_foldl_enter, filterMap_state_granted]
  exact foldl_insertNew _

end History

end Draft

/-- What edits that were tried on a draft say of the automaton that it is frozen into. -/
structure Automaton.Sound (a : Automaton) (edits : List Draft.Edit) : Prop where
  states : a.states = (edits.filterMap Draft.Edit.state?).eraseDups
  nodup : a.states.Nodup
  initialState : a.initialState ∈ a.states
  finalStates : ∀ state ∈ a.finalStates, state ∈ a.states
  bottom : ∀ x ∈ a.bottom, .addStackSymbol x ∈ edits
  inputAlphabet : ∀ x, x ∈ a.inputAlphabet ↔ .addInputSymbol x ∈ edits
  transitions : ∀ t ∈ a.table.transitions, Draft.Registers edits t

namespace Draft

/-- Whatever is tried on a draft, and whatever of it is refused, the draft is the one that the
granted edits make on their own. It grants a rule when its names have been registered, it is frozen
into a sound automaton, and it cannot be frozen just when no state was registered or no initial
state was set. -/
theorem performAll_history (name : String) (acceptance : Acceptance) (edits : List Edit) :
    let history := (performAll edits).run (blank name acceptance)
    let kept := granted edits history.1
    let d := history.2
    (performAll kept).run (blank name acceptance) = (kept.map fun _ => .ok (), d) ∧
    (∀ rule, ((perform (.addRule rule)).run.run d).1 = .ok () ↔ Registers edits rule.transition) ∧
    (∀ a, d.freeze = .ok a → a.Sound edits) ∧
    ((∃ e, d.freeze = .error e) ↔
      (∀ state, .addState state ∉ edits) ∨ ∀ state, .setInitialState state ∉ kept) := by
  intro history kept d
  have applied : (blank name acceptance).applyAll kept = .ok d :=
    applyAll_granted edits (blank name acceptance)
  have assembled := (Assembled.blank name acceptance).applyAll applied
  have names : d.RegisteredBy edits := performAll_registeredBy name acceptance edits
  refine ⟨performAll_of_applyAll applied, ?_, ?_, ?_⟩
  · intro rule
    rw [← names.knows_iff, ← checkRule_eq_ok, (guarded_perform _).run_eq]
    show _ ↔ d.permits (.addRule rule) = _
    cases d.permits (.addRule rule) <;> simp
  · intro a frozen
    have frozen := Automaton.freeze_eq_ok frozen
    have states : d.states = (edits.filterMap Edit.state?).eraseDups :=
      states_performAll name acceptance edits
    refine ⟨frozen.states.trans states, ?_, ?_, ?_, ?_, ?_, ?_⟩
    · rw [frozen.states, states]
      exact nodup_eraseDups _
    · rw [frozen.states]
      exact assembled.coherent.initialState _ frozen.initialState
    · rw [frozen.states, frozen.finalStates]
      exact assembled.coherent.finalStates
    · intro x bottom
      rw [frozen.bottom] at bottom
      exact (names.stackAlphabet x).mp (assembled.coherent.bottom x bottom)
    · rw [frozen.inputAlphabet]
      exact names.inputAlphabet
    · intro t member
      rw [frozen.table, assembled.mem_transitions] at member
      exact (names.knows_iff t).mp (assembled.knows t member)
  · have unset : d.initialState = none ↔ ∀ state, .setInitialState state ∉ kept := by
      show history.2.initialState = none ↔ _
      rw [performAll_eq_foldl, initialState_foldl_enter_eq_none]
      exact and_iff_right rfl
    rw [freeze_fails_iff, unset, List.eq_nil_iff_forall_not_mem]
    simp only [names.states]

/-- Three of these edits are refused, since they name what is registered after them. -/
theorem performAll_history_refusals :
    let rule : Rule := ⟨"p", some 'a', none, "q", ['a', 'b']⟩
    let edits : List Edit := [.addStackSymbol 'a', .addState "p", .setInitialState "q",
      .addState "q", .addRule rule, .addInputSymbol 'a', .addState "p", .setInitialState "p",
      .addRule rule, .addStackSymbol 'b']
    let kept : List Edit := [.addStackSymbol 'a', .addState "p", .addState "q",
      .addInputSymbol 'a', .addState "p", .setInitialState "p", .addStackSymbol 'b']
    let d := ((performAll edits).run (blank "Late" .finalState)).2
    ((performAll kept).run (blank "Late" .finalState)).2 = d ∧
    ((perform (.addRule rule)).run.run d).1 = .ok () ∧
    ∃ a, d.freeze = .ok a ∧ a.states = ["p", "q"] ∧ a.table = .empty := by
  intro rule edits kept d
  obtain ⟨replayed, grants, frozen, -⟩ := performAll_history "Late" .finalState edits
  have granted : granted edits ((performAll edits).run (blank "Late" .finalState)).1 = kept := by
    decide +kernel
  rw [granted] at replayed
  have pushes : ∀ x ∈ ['a', 'b'], .addStackSymbol x ∈ edits :=
    List.forall_mem_cons.mpr ⟨by decide, List.forall_mem_singleton.mpr (by decide)⟩
  have known : Registers edits rule.transition := by
    refine ⟨by decide, by decide, ?_, nofun, pushes⟩
    rintro _ ⟨⟩
    decide
  have same : ((performAll kept).run (blank "Late" .finalState)).2 = d := by rw [replayed]
  refine ⟨same, (grants rule).mpr known, _, rfl, ?_, rfl⟩
  exact (frozen _ rfl).states.trans (by decide)

end Draft

end Pushdown
