import Pushdown.Automaton.Draft
import Pushdown.Proofs.Outcomes

/-!
# Assembled drafts

What edits leave behind in a draft. `Assembled` follows a draft from a blank one, edit by edit, and
keeps the transitions in the order in which they were registered. An automaton is `Built` when such
a draft was frozen into it; every definition that is accepted leads to one.
-/

namespace Pushdown

namespace Table

def ofTransitions (registered : List Transition) : Table := registered.foldl insert empty

theorem ofTransitions_concat (registered : List Transition) (t : Transition) :
    ofTransitions (registered ++ [t]) = (ofTransitions registered).insert t := by
  rw [ofTransitions, List.foldl_append]
  rfl

theorem get_foldl_insert (registered : List Transition) (table : Table) (key : Transition.Key) :
    (registered.foldl insert table).get key =
      table.get key ++ (registered.filter (·.key = key)).map Transition.target := by
  induction registered generalizing table with
  | nil => simp
  | cons t registered ih =>
    rw [List.foldl_cons, ih, get_insert]
    by_cases same : key = t.key
    · simp [same]
    · simp [same, Ne.symm same]

/-- Under each key a table holds what was registered under it, first ones first. -/
theorem get_ofTransitions (registered : List Transition) (key : Transition.Key) :
    (ofTransitions registered).get key =
      (registered.filter (·.key = key)).map Transition.target := by
  rw [ofTransitions, get_foldl_insert, get_empty, List.nil_append]

theorem withKey_ofTransitions (registered : List Transition) (key : Transition.Key) :
    (ofTransitions registered).withKey key = registered.filter (·.key = key) := by
  rw [withKey, get_ofTransitions, List.map_map]
  refine (List.map_congr_left ?_).trans (List.map_id _)
  intro t member
  obtain rfl : t.key = key := of_decide_eq_true (List.mem_filter.mp member).2
  rfl

end Table

namespace Draft

structure Knows (d : Draft) (t : Transition) : Prop where
  origin : t.key.state ∈ d.states
  destination : t.target.destination ∈ d.states
  reads : ∀ x ∈ t.key.reads, x ∈ d.inputAlphabet
  pops : ∀ x ∈ t.key.pops, x ∈ d.stackAlphabet
  pushes : ∀ x ∈ t.target.pushes, x ∈ d.stackAlphabet

theorem checkState_eq_ok {d : Draft} {state : State} :
    d.checkState state = .ok () ↔ state ∈ d.states := by
  simp [checkState]

theorem checkInputSymbol_eq_ok {d : Draft} {x : Symbol} :
    d.checkInputSymbol x = .ok () ↔ x ∈ d.inputAlphabet := by
  simp [checkInputSymbol]

theorem checkStackSymbol_eq_ok {d : Draft} {x : Symbol} :
    d.checkStackSymbol x = .ok () ↔ x ∈ d.stackAlphabet := by
  simp [checkStackSymbol]

/-- A rule passes when everything that it names is known. -/
theorem checkRule_eq_ok {d : Draft} {rule : Rule} :
    d.checkRule rule = .ok () ↔ d.Knows rule.transition := by
  simp only [checkRule, check_then_eq_ok, checkState_eq_ok, forM_option_eq_ok,
    forM_list_eq_ok, checkInputSymbol_eq_ok, checkStackSymbol_eq_ok]
  constructor
  · rintro ⟨origin, destination, reads, pops, pushes⟩
    exact ⟨origin, destination, reads, pops, pushes⟩
  · intro known
    exact ⟨known.origin, known.destination, known.reads, known.pops, known.pushes⟩

/-! ### What an edit changes -/

def Edit.transition? : Edit → Option Transition
  | .addRule rule => some rule.transition
  | _ => none

structure Extends (d d' : Draft) : Prop where
  states : d.states ⊆ d'.states
  inputAlphabet : d.inputAlphabet ⊆ d'.inputAlphabet
  stackAlphabet : d.stackAlphabet ⊆ d'.stackAlphabet

theorem Extends.refl (d : Draft) : d.Extends d :=
  ⟨List.Subset.refl _, List.Subset.refl _, List.Subset.refl _⟩

theorem Knows.extend {d d' : Draft} {t : Transition} (known : d.Knows t) (more : d.Extends d') :
    d'.Knows t where
  origin := more.states known.origin
  destination := more.states known.destination
  reads x named := more.inputAlphabet (known.reads x named)
  pops x named := more.stackAlphabet (known.pops x named)
  pushes x named := more.stackAlphabet (known.pushes x named)

theorem subset_insertNew {α : Type} [DecidableEq α] (xs : List α) (x : α) :
    xs ⊆ insertNew xs x := by
  intro y member
  exact (mem_insertNew xs x y).mpr (Or.inl member)

/-- All that an edit may do: it only adds, it registers its own transition, and of that it knew all
the parts. -/
theorem apply_eq_ok {d d' : Draft} {edit : Edit} (applied : d.apply edit = .ok d') :
    d.Extends d' ∧ d'.table = edit.transition?.elim d.table d.table.insert ∧
      ∀ t ∈ edit.transition?, d.Knows t := by
  cases edit with
  | addState state =>
    obtain rfl := Except.ok.inj applied
    exact ⟨{ Extends.refl d with states := subset_insertNew _ _ }, rfl, nofun⟩
  | addInputSymbol x =>
    obtain rfl := Except.ok.inj applied
    exact ⟨{ Extends.refl d with inputAlphabet := subset_insertNew _ _ }, rfl, nofun⟩
  | addStackSymbol x =>
    obtain rfl := Except.ok.inj applied
    exact ⟨{ Extends.refl d with stackAlphabet := subset_insertNew _ _ }, rfl, nofun⟩
  | setAcceptance acceptance =>
    obtain rfl := Except.ok.inj applied
    exact ⟨{ Extends.refl d with }, rfl, nofun⟩
  | setInitialState state | addFinalState state | setBottom x =>
    obtain ⟨-, stored⟩ := check_then_eq_ok.mp applied
    obtain rfl := Except.ok.inj stored
    exact ⟨{ Extends.refl d with }, rfl, nofun⟩
  | addRule rule =>
    obtain ⟨passed, stored⟩ := check_then_eq_ok.mp applied
    obtain rfl := Except.ok.inj stored
    refine ⟨{ Extends.refl d with }, rfl, ?_⟩
    intro t named
    obtain rfl : rule.transition = t := Option.some.inj named
    exact checkRule_eq_ok.mp passed

/-! ### Drafts that edits lead to -/

/-- The drafts that edits lead to, with the transitions registered on the way, first ones first. An
edit that is refused leaves the draft as it was. -/
inductive Assembled : Draft → List Transition → Prop where
  | blank (name : String) (acceptance : Acceptance) : Assembled (.blank name acceptance) []
  | edit {d d' : Draft} {registered : List Transition} {edit : Edit} :
    Assembled d registered → d.apply edit = .ok d' →
      Assembled d' (registered ++ edit.transition?.toList)

namespace Assembled

variable {d d' : Draft} {registered : List Transition}

theorem knows (h : Assembled d registered) : ∀ t ∈ registered, d.Knows t := by
  induction h with
  | blank => simp
  | edit _ applied ih =>
    obtain ⟨more, -, known⟩ := apply_eq_ok applied
    intro t member
    rcases List.mem_append.mp member with old | new
    · exact (ih t old).extend more
    · exact (known t (by simpa using new)).extend more

/-- The table of a draft holds what was registered, and nothing else was done to it. -/
theorem table_eq (h : Assembled d registered) : d.table = .ofTransitions registered := by
  induction h with
  | blank => rfl
  | @edit d d' registered edit _ applied ih =>
    obtain ⟨-, table, -⟩ := apply_eq_ok applied
    rw [table, ih]
    cases edit.transition? with
    | none => simp
    | some t => exact (Table.ofTransitions_concat registered t).symm

theorem applyAll {edits : List Edit} (h : Assembled d registered)
    (applied : d.applyAll edits = .ok d') :
    Assembled d' (registered ++ edits.filterMap Edit.transition?) := by
  induction edits generalizing d registered with
  | nil =>
    obtain rfl : d = d' := Except.ok.inj applied
    simpa using h
  | cons edit edits ih =>
    obtain ⟨next, first, rest⟩ := bind_eq_ok.mp applied
    have whole := ih (h.edit first) rest
    cases named : edit.transition? with
    | none => simpa [named] using whole
    | some t => simpa [named] using whole

end Assembled

theorem filterMap_declarations {α : Type} {edit : α → Edit} (xs : List α)
    (silent : Edit.transition? ∘ edit = fun _ => none) :
    (xs.map edit).filterMap Edit.transition? = [] := by
  rw [List.filterMap_map, silent]
  exact List.filterMap_eq_nil_iff.mpr fun _ _ => rfl

theorem filterMap_transition_editsOf (d : Definition) :
    (editsOf d).filterMap Edit.transition? = d.rules.map Rule.transition := by
  have bottom : (d.bottom.map Edit.setBottom).toList.filterMap Edit.transition? = [] := by
    cases d.bottom <;> rfl
  have rules : (d.rules.map Edit.addRule).filterMap Edit.transition? =
      d.rules.map Rule.transition := by
    rw [List.filterMap_map]
    exact congrFun List.filterMap_eq_map d.rules
  unfold editsOf
  rw [List.filterMap_append, List.filterMap_append, List.filterMap_append, List.filterMap_append,
    List.filterMap_append, List.filterMap_append, filterMap_declarations d.states rfl,
    filterMap_declarations d.inputAlphabet rfl, filterMap_declarations d.stackAlphabet rfl,
    filterMap_declarations d.finalStates rfl, bottom, rules]
  rfl

end Draft

/-! ### Automata that drafts are frozen into -/

namespace Automaton

/-- An automaton comes from a draft in which these transitions were registered, in this order. -/
def Built (a : Automaton) (registered : List Transition) : Prop :=
  ∃ d, Draft.Assembled d registered ∧ d.freeze = .ok a

variable {a : Automaton} {registered : List Transition}

/-- What an automaton takes over from the draft that was frozen into it. -/
structure FrozenFrom (a : Automaton) (d : Draft) : Prop where
  states : a.states = d.states
  inputAlphabet : a.inputAlphabet = d.inputAlphabet
  initialState : d.initialState = some a.initialState
  finalStates : a.finalStates = d.finalStates
  acceptance : a.acceptance = d.acceptance
  bottom : a.bottom = d.bottom
  table : a.table = d.table

theorem freeze_eq_ok {d : Draft} (frozen : d.freeze = .ok a) : a.FrozenFrom d := by
  unfold Draft.freeze at frozen
  split at frozen
  · cases frozen
  · split at frozen
    · cases frozen
    · next named =>
      obtain rfl := Except.ok.inj frozen
      exact ⟨rfl, rfl, named, rfl, rfl, rfl, rfl⟩

theorem Built.table_eq (built : a.Built registered) : a.table = .ofTransitions registered := by
  obtain ⟨d, assembled, frozen⟩ := built
  rw [(freeze_eq_ok frozen).table, assembled.table_eq]

theorem Built.get_eq (built : a.Built registered) (key : Transition.Key) :
    a.table.get key = (registered.filter (·.key = key)).map Transition.target := by
  rw [built.table_eq, Table.get_ofTransitions]

theorem Built.withKey_eq (built : a.Built registered) (key : Transition.Key) :
    a.table.withKey key = registered.filter (·.key = key) := by
  rw [built.table_eq, Table.withKey_ofTransitions]

/-- What a registered transition reads is in the input alphabet. -/
theorem Built.readsSymbol (built : a.Built registered) {t : Transition} (member : t ∈ registered)
    {x : Symbol} (reads : t.key.reads = some x) : a.readsSymbol x = true := by
  obtain ⟨d, assembled, frozen⟩ := built
  have known := (assembled.knows t member).reads x reads
  rw [← (freeze_eq_ok frozen).inputAlphabet] at known
  exact decide_eq_true known

/-- The edits that enter a definition register its rules in their order. -/
theorem ofDefinition_eq_ok {d : Definition} (accepted : ofDefinition d = .ok a) :
    ∃ k : Draft, (Draft.blank d.name d.acceptance).applyAll (Draft.editsOf d) = .ok k ∧
      Draft.Assembled k (d.rules.map Rule.transition) ∧ k.freeze = .ok a := by
  obtain ⟨k, applied, frozen⟩ := bind_eq_ok.mp accepted
  refine ⟨k, applied, ?_, frozen⟩
  have assembled := (Draft.Assembled.blank d.name d.acceptance).applyAll applied
  rwa [Draft.filterMap_transition_editsOf, List.nil_append] at assembled

theorem ofDefinition_built {d : Definition} (accepted : ofDefinition d = .ok a) :
    a.Built (d.rules.map Rule.transition) := by
  obtain ⟨k, -, assembled, frozen⟩ := ofDefinition_eq_ok accepted
  exact ⟨k, assembled, frozen⟩

end Automaton

end Pushdown
