import Pushdown.Proofs.Agreement

/-!
# Frozen drafts

Whatever the edits that led to it, a draft has registered its initial state and its bottom symbol,
so an automaton is frozen from names that its draft knows. Where the edits enter a definition, these
are the names that the definition declares, and the automaton starts and accepts as it says.
-/

namespace Pushdown

namespace Draft

/-- What a draft starts a run from and ends one in, it has registered. -/
structure Coherent (k : Draft) : Prop where
  initialState : ∀ state ∈ k.initialState, state ∈ k.states
  finalStates : ∀ state ∈ k.finalStates, state ∈ k.states
  bottom : ∀ x ∈ k.bottom, x ∈ k.stackAlphabet

theorem Coherent.apply {k k' : Draft} {edit : Edit} (coherent : k.Coherent)
    (applied : k.apply edit = .ok k') : k'.Coherent := by
  obtain ⟨more, -, -⟩ := apply_eq_ok applied
  obtain ⟨initialState, finalStates, bottom⟩ := coherent
  cases edit with
  | addState | addInputSymbol | addStackSymbol | setAcceptance =>
    obtain rfl := Except.ok.inj applied
    exact ⟨fun state named => more.states (initialState state named),
      fun state named => more.states (finalStates state named),
      fun x named => more.stackAlphabet (bottom x named)⟩
  | addRule =>
    obtain ⟨-, stored⟩ := check_then_eq_ok.mp applied
    obtain rfl := Except.ok.inj stored
    exact ⟨initialState, finalStates, bottom⟩
  | setInitialState state =>
    obtain ⟨known, stored⟩ := check_then_eq_ok.mp applied
    obtain rfl := Except.ok.inj stored
    refine ⟨?_, finalStates, bottom⟩
    rintro _ ⟨⟩
    exact checkState_eq_ok.mp known
  | addFinalState state =>
    obtain ⟨known, stored⟩ := check_then_eq_ok.mp applied
    obtain rfl := Except.ok.inj stored
    refine ⟨initialState, ?_, bottom⟩
    intro other named
    rcases (mem_insertNew _ _ _).mp named with old | rfl
    · exact finalStates other old
    · exact checkState_eq_ok.mp known
  | setBottom x =>
    obtain ⟨known, stored⟩ := check_then_eq_ok.mp applied
    obtain rfl := Except.ok.inj stored
    refine ⟨initialState, finalStates, ?_⟩
    rintro _ ⟨⟩
    exact checkStackSymbol_eq_ok.mp known

theorem Assembled.coherent {k : Draft} {registered : List Transition}
    (assembled : Assembled k registered) : k.Coherent := by
  induction assembled with
  | blank => exact ⟨nofun, nofun, nofun⟩
  | edit _ applied ih => exact ih.apply applied

theorem applyAll_eq_foldl {k k' : Draft} {edits : List Edit} (applied : k.applyAll edits = .ok k') :
    k' = edits.foldl enter k := by
  induction edits generalizing k with
  | nil => exact (Except.ok.inj applied).symm
  | cons edit edits ih =>
    obtain ⟨next, first, rest⟩ := bind_eq_ok.mp applied
    rw [apply_eq] at first
    obtain ⟨-, entered⟩ := check_then_eq_ok.mp first
    obtain rfl := Except.ok.inj entered
    exact ih rest

structure SameNames (k : Draft) (d : Definition) : Prop where
  states : ∀ state, state ∈ k.states ↔ state ∈ d.states
  inputAlphabet : ∀ x, x ∈ k.inputAlphabet ↔ x ∈ d.inputAlphabet
  stackAlphabet : ∀ x, x ∈ k.stackAlphabet ↔ x ∈ d.stackAlphabet

theorem foldl_editsOf_sameNames (d : Definition) :
    ((editsOf d).foldl enter (.blank d.name d.acceptance)).SameNames d where
  states state := by
    rw [mem_foldl_enter mem_states_enter]
    simp [editsOf, blank]
  inputAlphabet x := by
    rw [mem_foldl_enter mem_inputAlphabet_enter]
    simp [editsOf, blank]
  stackAlphabet x := by
    rw [mem_foldl_enter mem_stackAlphabet_enter]
    simp [editsOf, blank]

/-! ### What a definition says of the start and the end of a run -/

theorem mem_finalStates_enter (k : Draft) (edit : Edit) (state : State) :
    state ∈ (k.enter edit).finalStates ↔ state ∈ k.finalStates ∨ edit = .addFinalState state := by
  cases edit <;> simp [enter, eq_comm]

/-- What no edit of a series changes is the same after all of them. -/
theorem foldl_enter_eq {α : Type} (field : Draft → α) {edits : List Edit}
    (keeps : ∀ edit ∈ edits, ∀ k : Draft, field (k.enter edit) = field k) (k : Draft) :
    field (edits.foldl enter k) = field k := by
  induction edits generalizing k with
  | nil => rfl
  | cons edit edits ih =>
    rw [List.forall_mem_cons] at keeps
    rw [List.foldl_cons, ih keeps.2, keeps.1]

theorem initialState_editsOf (d : Definition) (k : Draft) :
    ((editsOf d).foldl enter k).initialState = some d.initialState := by
  rw [editsOf_eq, List.foldl_append, List.foldl_cons, foldl_enter_eq Draft.initialState]
  · rfl
  · intro edit member k
    simp only [usesOf, List.mem_append, List.mem_map, Option.mem_toList,
      Option.map_eq_some_iff] at member
    rcases member with (⟨_, -, rfl⟩ | ⟨_, -, rfl⟩) | ⟨_, -, rfl⟩ <;> rfl

theorem acceptance_editsOf (d : Definition) (k : Draft) :
    ((editsOf d).foldl enter k).acceptance = k.acceptance := by
  apply foldl_enter_eq Draft.acceptance
  intro edit member k
  simp only [editsOf, List.mem_append, List.mem_map, Option.mem_toList, List.mem_singleton,
    Option.map_eq_some_iff] at member
  rcases member with (((((⟨_, -, rfl⟩ | ⟨_, -, rfl⟩) | ⟨_, -, rfl⟩) | rfl) | ⟨_, -, rfl⟩) |
    ⟨_, -, rfl⟩) | ⟨_, -, rfl⟩ <;> rfl

theorem bottom_editsOf (d : Definition) (k : Draft) :
    ((editsOf d).foldl enter k).bottom = d.bottom.or k.bottom := by
  have rules : ∀ edit ∈ d.rules.map Edit.addRule, ∀ k, (enter k edit).bottom = k.bottom := by
    simp [enter]
  rw [editsOf, List.foldl_append, foldl_enter_eq Draft.bottom rules, List.foldl_append]
  cases d.bottom with
  | some x => rfl
  | none =>
    refine foldl_enter_eq Draft.bottom ?_ k
    intro edit member k
    simp only [List.mem_append, List.mem_map, List.mem_singleton] at member
    rcases member with (((⟨_, -, rfl⟩ | ⟨_, -, rfl⟩) | ⟨_, -, rfl⟩) | rfl) | ⟨_, -, rfl⟩ <;> rfl

end Draft

namespace Automaton

variable {a : Automaton} {d : Definition} {registered : List Transition}

structure Knows (a : Automaton) (registered : List Transition) (k : Draft) : Prop where
  initialState : a.initialState ∈ k.states
  bottom : ∀ x ∈ a.bottom, x ∈ k.stackAlphabet
  transitions : ∀ t ∈ registered, k.Knows t

theorem Knows.of_frozen {k : Draft} (assembled : Draft.Assembled k registered)
    (frozen : k.freeze = .ok a) : a.Knows registered k where
  initialState := assembled.coherent.initialState _ (freeze_eq_ok frozen).initialState
  bottom x named := assembled.coherent.bottom x ((freeze_eq_ok frozen).bottom ▸ named)
  transitions := assembled.knows

theorem Built.knows (built : a.Built registered) :
    ∃ k : Draft, k.states = a.states ∧ a.Knows registered k := by
  obtain ⟨k, assembled, frozen⟩ := built
  exact ⟨k, (freeze_eq_ok frozen).states.symm, .of_frozen assembled frozen⟩

theorem ofDefinition_knows (accepted : ofDefinition d = .ok a) :
    ∃ k : Draft, k.SameNames d ∧ a.Knows (d.rules.map Rule.transition) k := by
  obtain ⟨k, applied, assembled, frozen⟩ := ofDefinition_eq_ok accepted
  refine ⟨k, ?_, .of_frozen assembled frozen⟩
  rw [Draft.applyAll_eq_foldl applied]
  exact Draft.foldl_editsOf_sameNames d

structure Follows (a : Automaton) (d : Definition) : Prop where
  initialState : a.initialState = d.initialState
  finalStates : ∀ state, state ∈ a.finalStates ↔ state ∈ d.finalStates
  acceptance : a.acceptance = d.acceptance
  bottom : a.bottom = d.bottom

theorem ofDefinition_follows (accepted : ofDefinition d = .ok a) : a.Follows d := by
  obtain ⟨k, applied, -, frozen⟩ := ofDefinition_eq_ok accepted
  obtain rfl := Draft.applyAll_eq_foldl applied
  have frozen := freeze_eq_ok frozen
  refine ⟨?_, ?_, ?_, ?_⟩
  · have named := frozen.initialState
    rw [Draft.initialState_editsOf] at named
    exact (Option.some.inj named).symm
  · intro state
    rw [frozen.finalStates, Draft.mem_foldl_enter Draft.mem_finalStates_enter]
    simp [Draft.editsOf, Draft.blank]
  · rw [frozen.acceptance, Draft.acceptance_editsOf]
    rfl
  · rw [frozen.bottom, Draft.bottom_editsOf]
    exact Option.or_none

end Automaton

end Pushdown
