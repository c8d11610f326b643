import Pushdown.Format.Reading
import Pushdown.Proofs.WellFormed

/-!
# Agreement of the checks

Putting together the automaton of a definition checks it once more, edit by edit. For a rooted
definition this comes down to the check of its symbols, so both name the same symbol first.
-/

namespace Pushdown

namespace Draft

def permits (k : Draft) : Edit → Except Error Unit
  | .addState _ | .addInputSymbol _ | .addStackSymbol _ | .setAcceptance _ => .ok ()
  | .setInitialState state | .addFinalState state => k.checkState state
  | .setBottom x => k.checkStackSymbol x
  | .addRule rule => k.checkRule rule

def enter (k : Draft) : Edit → Draft
  | .addState state => { k with states := insertNew k.states state }
  | .addInputSymbol x => { k with inputAlphabet := insertNew k.inputAlphabet x }
  | .addStackSymbol x => { k with stackAlphabet := insertNew k.stackAlphabet x }
  | .setAcceptance acceptance => { k with acceptance }
  | .setInitialState state => { k with initialState := some state }
  | .addFinalState state => { k with finalStates := insertNew k.finalStates state }
  | .setBottom x => { k with bottom := some x }
  | .addRule rule => { k with table := k.table.insert rule.transition }

theorem apply_eq (k : Draft) (edit : Edit) :
    k.apply edit = k.permits edit >>= fun _ => .ok (k.enter edit) := by
  cases edit <;> rfl

def Edit.Declares : Edit → Prop
  | .addState _ | .addInputSymbol _ | .addStackSymbol _ => True
  | _ => False

theorem permits_of_declares {edit : Edit} (declares : edit.Declares) (k : Draft) :
    k.permits edit = .ok () := by
  cases edit <;> first | rfl | exact declares.elim

theorem applyAll_declarations {edits : List Edit} (declare : ∀ edit ∈ edits, edit.Declares)
    (k : Draft) : k.applyAll edits = .ok (edits.foldl enter k) := by
  induction edits generalizing k with
  | nil => rfl
  | cons edit edits ih =>
    have free : k.permits edit = .ok () := permits_of_declares (declare edit List.mem_cons_self) k
    have first : k.apply edit = .ok (k.enter edit) := by rw [apply_eq, free]; rfl
    have rest := ih (fun edit member => declare edit (List.mem_cons_of_mem _ member)) (k.enter edit)
    show k.apply edit >>= _ = _
    rw [first]
    exact rest

/-- Edits that only use names are permitted or refused whatever was entered before them. -/
theorem permits_enter {k : Draft} {edit : Edit} (uses : ¬ edit.Declares) :
    (k.enter edit).permits = k.permits := by
  cases edit <;> first | rfl | exact absurd trivial uses

theorem applyAll_uses {edits : List Edit} (use : ∀ edit ∈ edits, ¬ edit.Declares) (k : Draft) :
    k.applyAll edits = edits.forM k.permits >>= fun _ => .ok (edits.foldl enter k) := by
  induction edits generalizing k with
  | nil => rfl
  | cons edit edits ih =>
    have rest := ih (fun edit member => use edit (List.mem_cons_of_mem _ member)) (k.enter edit)
    rw [permits_enter (use edit List.mem_cons_self)] at rest
    show k.apply edit >>= (fun next => next.applyAll edits) =
      (k.permits edit >>= fun _ => edits.forM k.permits) >>= _
    rw [apply_eq]
    cases k.permits edit with
    | error e => rfl
    | ok _ => exact rest

/-! ### What is declared -/

variable {k : Draft} {edits : List Edit} {d : Definition}

theorem mem_foldl_enter {α : Type} {names : Draft → List α} {declare : α → Edit}
    (step : ∀ k edit x, x ∈ names (enter k edit) ↔ x ∈ names k ∨ edit = declare x) (x : α) :
    x ∈ names (edits.foldl enter k) ↔ x ∈ names k ∨ declare x ∈ edits := by
  induction edits generalizing k with
  | nil => simp
  | cons edit edits ih => rw [List.foldl_cons, ih, step, List.mem_cons, or_assoc, eq_comm]

theorem mem_states_enter (k : Draft) (edit : Edit) (state : State) :
    state ∈ (k.enter edit).states ↔ state ∈ k.states ∨ edit = .addState state := by
  cases edit <;> simp [enter, eq_comm]

theorem mem_inputAlphabet_enter (k : Draft) (edit : Edit) (x : Symbol) :
    x ∈ (k.enter edit).inputAlphabet ↔ x ∈ k.inputAlphabet ∨ edit = .addInputSymbol x := by
  cases edit <;> simp [enter, eq_comm]

theorem mem_stackAlphabet_enter (k : Draft) (edit : Edit) (x : Symbol) :
    x ∈ (k.enter edit).stackAlphabet ↔ x ∈ k.stackAlphabet ∨ edit = .addStackSymbol x := by
  cases edit <;> simp [enter, eq_comm]

theorem initialState_foldl_enter (known : k.initialState ≠ none) :
    (edits.foldl enter k).initialState ≠ none := by
  induction edits generalizing k with
  | nil => exact known
  | cons edit edits ih =>
    apply ih
    cases edit <;> first | exact known | exact Option.some_ne_none _

def declarationsOf (d : Definition) : List Edit :=
  d.states.map .addState ++ d.inputAlphabet.map .addInputSymbol ++
    d.stackAlphabet.map .addStackSymbol

/-- The edits that use them, after that of the initial state. -/
def usesOf (d : Definition) : List Edit :=
  d.finalStates.map .addFinalState ++ (d.bottom.map Edit.setBottom).toList ++ d.rules.map .addRule

theorem editsOf_eq (d : Definition) :
    editsOf d = declarationsOf d ++ .setInitialState d.initialState :: usesOf d := by
  simp [editsOf, declarationsOf, usesOf]

theorem declares_of_mem {edit : Edit} (member : edit ∈ declarationsOf d) : edit.Declares := by
  simp only [declarationsOf, List.mem_append, List.mem_map] at member
  rcases member with (⟨state, -, rfl⟩ | ⟨x, -, rfl⟩) | ⟨x, -, rfl⟩ <;> trivial

theorem not_declares_of_mem {edit : Edit}
    (member : edit ∈ Edit.setInitialState d.initialState :: usesOf d) : ¬ edit.Declares := by
  simp only [usesOf, List.mem_cons, List.mem_append, List.mem_map, Option.mem_toList,
    Option.map_eq_some_iff] at member
  rcases member with rfl | (⟨state, -, rfl⟩ | ⟨x, -, rfl⟩) | ⟨rule, -, rfl⟩ <;> exact id

def declared (d : Definition) : Draft :=
  (declarationsOf d).foldl enter (.blank d.name d.acceptance)

theorem mem_states_declared {state : State} : state ∈ (declared d).states ↔ state ∈ d.states := by
  rw [declared, mem_foldl_enter mem_states_enter]
  simp [declarationsOf, blank]

theorem mem_inputAlphabet_declared {x : Symbol} :
    x ∈ (declared d).inputAlphabet ↔ x ∈ d.inputAlphabet := by
  rw [declared, mem_foldl_enter mem_inputAlphabet_enter]
  simp [declarationsOf, blank]

theorem mem_stackAlphabet_declared {x : Symbol} :
    x ∈ (declared d).stackAlphabet ↔ x ∈ d.stackAlphabet := by
  rw [declared, mem_foldl_enter mem_stackAlphabet_enter]
  simp [declarationsOf, blank]

end Draft

open Draft

variable {d : Definition}

theorem Draft.freeze_ok {k : Draft} {state : State} (known : state ∈ k.states)
    (initial : k.initialState ≠ none) : ∃ a, k.freeze = .ok a := by
  obtain ⟨state, named⟩ := Option.ne_none_iff_exists'.mp initial
  have some : k.states.isEmpty = false := by
    rw [List.isEmpty_eq_false_iff]
    exact List.ne_nil_of_mem known
  unfold freeze
  rw [named, some]
  exact ⟨_, rfl⟩

/-- Whether an automaton can be put together depends on the edits that use names only, and each of
them is asked about the names that are declared. -/
theorem Automaton.ofDefinition_eq (d : Definition) :
    (ofDefinition d).map (fun _ => ()) = (declared d).checkState d.initialState >>= fun _ =>
      (usesOf d).forM (declared d).permits := by
  have applied : (blank d.name d.acceptance).applyAll (editsOf d) =
      (declared d).applyAll (.setInitialState d.initialState :: usesOf d) := by
    have declarations := applyAll_declarations (fun _ => declares_of_mem (d := d))
      (blank d.name d.acceptance)
    unfold applyAll at declarations ⊢
    rw [editsOf_eq, List.foldlM_append, declarations]
    rfl
  unfold ofDefinition
  rw [applied, applyAll_uses (fun _ => not_declares_of_mem)]
  show _ = (Edit.setInitialState d.initialState :: usesOf d).forM (declared d).permits
  cases permitted : (Edit.setInitialState d.initialState :: usesOf d).forM (declared d).permits with
  | error e => rfl
  | ok _ =>
    -- The initial state was entered and is declared, so nothing keeps the draft from freezing.
    have initial := forM_list_eq_ok.mp permitted _ List.mem_cons_self
    let entered := (declared d).enter (.setInitialState d.initialState)
    have known : d.initialState ∈ ((usesOf d).foldl enter entered).states :=
      (mem_foldl_enter mem_states_enter _).mpr (Or.inl (checkState_eq_ok.mp initial))
    have named : ((usesOf d).foldl enter entered).initialState ≠ none :=
      initialState_foldl_enter (Option.some_ne_none d.initialState)
    obtain ⟨a, frozen⟩ := freeze_ok known named
    show (((usesOf d).foldl enter entered).freeze).map _ = _
    rw [frozen]
    rfl

/-- A definition names only what it declares. -/
structure Definition.Grounded (d : Definition) : Prop where
  initial : d.initialState ∈ d.states
  finals : ∀ state ∈ d.finalStates, state ∈ d.states
  ends : ∀ rule ∈ d.rules, rule.origin ∈ d.states ∧ rule.destination ∈ d.states
  spelled : d.Spelled

theorem Draft.permits_uses_iff :
    (∀ edit ∈ usesOf d, (declared d).permits edit = .ok ()) ↔
      (∀ state ∈ d.finalStates, state ∈ d.states) ∧ (∀ x ∈ d.bottom, x ∈ d.stackAlphabet) ∧
        ∀ rule ∈ d.rules, (declared d).Knows rule.transition := by
  simp only [usesOf, List.forall_mem_append, List.forall_mem_map, Option.toList_map, permits,
    checkState_eq_ok, checkStackSymbol_eq_ok, checkRule_eq_ok, mem_states_declared,
    mem_stackAlphabet_declared, Option.mem_toList, Option.mem_def, and_assoc]

/-- Definitions that name only what they declare, be it once or more often, have automata. -/
theorem Automaton.exists_ofDefinition_iff : (∃ a, ofDefinition d = .ok a) ↔ d.Grounded := by
  have passes : (∃ a, ofDefinition d = .ok a) ↔ (ofDefinition d).map (fun _ => ()) = .ok () := by
    cases ofDefinition d <;> simp [Except.map]
  rw [passes, ofDefinition_eq, check_then_eq_ok, checkState_eq_ok, mem_states_declared,
    forM_list_eq_ok, permits_uses_iff]
  constructor
  · rintro ⟨initial, finals, bottom, known⟩
    refine ⟨initial, finals, ?_, bottom, ?_, ?_, ?_⟩
    · intro rule member
      exact ⟨mem_states_declared.mp (known rule member).origin,
        mem_states_declared.mp (known rule member).destination⟩
    · intro rule member x named
      exact mem_inputAlphabet_declared.mp ((known rule member).reads x named)
    · intro rule member x named
      exact mem_stackAlphabet_declared.mp ((known rule member).pops x named)
    · intro rule member x named
      exact mem_stackAlphabet_declared.mp ((known rule member).pushes x named)
  · rintro ⟨initial, finals, ends, bottom, reads, pops, pushes⟩
    refine ⟨initial, finals, bottom, ?_⟩
    intro rule member
    exact {
      origin := mem_states_declared.mpr (ends rule member).1
      destination := mem_states_declared.mpr (ends rule member).2
      reads := fun x named => mem_inputAlphabet_declared.mpr (reads rule member x named)
      pops := fun x named => mem_stackAlphabet_declared.mpr (pops rule member x named)
      pushes := fun x named => mem_stackAlphabet_declared.mpr (pushes rule member x named) }

/-! ### The check of the symbols -/

namespace Definition

/-- The outcome of a check that came upon a foreign symbol, or upon none. -/
def refusal : Option (Symbol × Alphabet) → Except Error Unit
  | some (x, alphabet) => .error (.foreignSymbol x alphabet)
  | none => .ok ()

theorem checkSymbols_eq : d.checkSymbols = refusal d.foreignSymbol := by
  unfold checkSymbols refusal
  cases d.foreignSymbol <;> rfl

theorem refusal_or (first second : Option (Symbol × Alphabet)) :
    refusal (first.or second) = refusal first >>= fun _ => refusal second := by
  cases first <;> rfl

theorem forM_eq_refusal {α : Type} {check : α → Except Error Unit}
    {foreign : α → Option (Symbol × Alphabet)} {xs : List α}
    (same : ∀ a ∈ xs, check a = refusal (foreign a)) :
    xs.forM check = refusal (xs.findSome? foreign) := by
  induction xs with
  | nil => rfl
  | cons a xs ih =>
    have rest := ih fun other member => same other (List.mem_cons_of_mem _ member)
    rw [forM_list_cons, same a List.mem_cons_self, rest, List.findSome?_cons]
    cases foreign a <;> rfl

def foreignTo (symbols : List Symbol) (alphabet : Alphabet) (x : Symbol) :
    Option (Symbol × Alphabet) :=
  if x ∈ symbols then none else some (x, alphabet)

theorem checkInputSymbol_eq (x : Symbol) :
    (declared d).checkInputSymbol x = refusal (foreignTo d.inputAlphabet .input x) := by
  unfold checkInputSymbol foreignTo
  simp only [mem_inputAlphabet_declared]
  split <;> rfl

theorem checkStackSymbol_eq (x : Symbol) :
    (declared d).checkStackSymbol x = refusal (foreignTo d.stackAlphabet .stack x) := by
  unfold checkStackSymbol foreignTo
  simp only [mem_stackAlphabet_declared]
  split <;> rfl

theorem map_find?_eq (symbols : List Symbol) (alphabet : Alphabet) (xs : List Symbol) :
    (xs.find? (· ∉ symbols)).map (·, alphabet) = xs.findSome? (foreignTo symbols alphabet) := by
  induction xs with
  | nil => rfl
  | cons x xs ih =>
    rw [List.find?_cons, List.findSome?_cons, ← ih]
    by_cases known : x ∈ symbols <;> simp [foreignTo, known]

theorem filter_eq_find? (symbols : List Symbol) (found : Option Symbol) :
    found.filter (· ∉ symbols) = found.toList.find? (· ∉ symbols) := by
  cases found with
  | none => rfl
  | some x => by_cases known : x ∈ symbols <;> simp [known]

theorem foreignSymbolOf_eq (rule : Rule) : d.foreignSymbolOf rule =
    (rule.reads.toList.findSome? (foreignTo d.inputAlphabet .input)).or
      ((rule.pops.toList.findSome? (foreignTo d.stackAlphabet .stack)).or
        (rule.pushes.findSome? (foreignTo d.stackAlphabet .stack))) := by
  unfold foreignSymbolOf
  rw [← List.findSome?_append, ← map_find?_eq, ← map_find?_eq, filter_eq_find?]
  cases rule.reads.toList.find? (· ∉ d.inputAlphabet) <;> rfl

theorem foreignSymbol_eq : d.foreignSymbol =
    (d.bottom.toList.findSome? (foreignTo d.stackAlphabet .stack)).or
      (d.rules.findSome? d.foreignSymbolOf) := by
  unfold foreignSymbol
  rw [← map_find?_eq, filter_eq_find?]
  cases d.bottom.toList.find? (· ∉ d.stackAlphabet) <;> rfl

theorem checkState_declared {state : State} (known : state ∈ d.states) :
    (declared d).checkState state = .ok () :=
  checkState_eq_ok.mpr (mem_states_declared.mpr known)

/-- A rule between declared states is refused for its first foreign symbol. -/
theorem checkRule_eq {rule : Rule} (origin : rule.origin ∈ d.states)
    (destination : rule.destination ∈ d.states) :
    (declared d).checkRule rule = refusal (d.foreignSymbolOf rule) := by
  unfold checkRule
  rw [checkState_declared origin, checkState_declared destination, ← forM_toList, ← forM_toList,
    forM_eq_refusal fun x _ => checkInputSymbol_eq x,
    forM_eq_refusal fun x _ => checkStackSymbol_eq x,
    forM_eq_refusal fun x _ => checkStackSymbol_eq x, foreignSymbolOf_eq, refusal_or, refusal_or]
  rfl

/-- Putting together the automaton of a rooted definition checks its symbols. -/
theorem ofDefinition_eq_checkSymbols (rooted : d.Rooted) :
    (Automaton.ofDefinition d).map (fun _ => ()) = d.checkSymbols := by
  have finals : forM d.finalStates (fun state => (declared d).permits (.addFinalState state)) =
      .ok () :=
    forM_list_eq_ok.mpr fun state member => checkState_declared (rooted.finals state member)
  have bottom : forM d.bottom.toList (fun x => (declared d).permits (.setBottom x)) =
      refusal (d.bottom.toList.findSome? (foreignTo d.stackAlphabet .stack)) :=
    forM_eq_refusal fun x _ => checkStackSymbol_eq x
  have rules : forM d.rules (fun rule => (declared d).permits (.addRule rule)) =
      refusal (d.rules.findSome? d.foreignSymbolOf) :=
    forM_eq_refusal fun rule member =>
      checkRule_eq (rooted.ends rule member).1 (rooted.ends rule member).2
  rw [Automaton.ofDefinition_eq, checkState_declared rooted.initial, usesOf, List.forM_eq_forM,
    List.forM_append, List.forM_append, Option.toList_map, List.forM_map, List.forM_map,
    List.forM_map, checkSymbols_eq, foreignSymbol_eq, refusal_or, finals, bottom, rules]
  rfl

/-- What a draft with the declared names permits is well-formed, but for states declared twice. -/
theorem wellFormed_of_ofDefinition {a : Automaton} (built : Automaton.ofDefinition d = .ok a)
    (distinct : d.states.Nodup) : d.WellFormed := by
  obtain ⟨initial, finals, ends, spelled⟩ := Automaton.exists_ofDefinition_iff.mp ⟨a, built⟩
  exact ⟨⟨List.ne_nil_of_mem initial, distinct, initial, finals, ends⟩, spelled⟩

theorem check_of_ofText {text : String} (read : ofText text = .ok d) : d.check = .ok () := by
  unfold ofText at read
  split at read
  · cases read
  obtain ⟨sections, -, read⟩ := bind_eq_ok.mp read
  obtain ⟨-, read⟩ := check_then_eq_ok.mp read
  obtain ⟨definition, -, read⟩ := bind_eq_ok.mp read
  obtain ⟨passed, returned⟩ := check_then_eq_ok.mp read
  obtain rfl := Except.ok.inj returned
  exact passed

/-- Checking a definition and putting together its automaton agree: a definition passes exactly when
its states are distinct and it has an automaton, one that is refused for a symbol is refused for the
same symbol both times, and whatever is read from a text has an automaton. -/
theorem check_agrees_with_ofDefinition (d : Definition) :
    (d.check = .ok () ↔ d.states.Nodup ∧ ∃ a, Automaton.ofDefinition d = .ok a) ∧
    (∀ x alphabet, d.check = .error (.foreignSymbol x alphabet) →
      Automaton.ofDefinition d = .error (.foreignSymbol x alphabet)) ∧
    ∀ text, ofText text = .ok d → ∃ a, Automaton.ofDefinition d = .ok a := by
  have builds (passed : d.check = .ok ()) : ∃ a, Automaton.ofDefinition d = .ok a := by
    have wellFormed := check_eq_ok.mp passed
    have symbols := ofDefinition_eq_checkSymbols wellFormed.rooted
    rw [checkSymbols_eq_ok.mpr wellFormed.spelled] at symbols
    cases built : Automaton.ofDefinition d with
    | ok a => exact ⟨a, rfl⟩
    | error e => rw [built] at symbols; cases symbols
  refine ⟨⟨?_, ?_⟩, ?_, ?_⟩
  · intro passed
    exact ⟨(check_eq_ok.mp passed).rooted.nodup, builds passed⟩
  · rintro ⟨distinct, a, built⟩
    exact check_eq_ok.mpr (wellFormed_of_ofDefinition built distinct)
  · intro x alphabet refused
    have rooted := rooted_of_check_eq_error refused rfl
    have symbols := ofDefinition_eq_checkSymbols rooted
    rw [← check_eq_of_rooted rooted, refused] at symbols
    cases built : Automaton.ofDefinition d with
    | ok a => rw [built] at symbols; cases symbols
    | error e =>
      rw [built] at symbols
      exact congrArg Except.error (Except.error.inj symbols)
  · intro text read
    exact builds (check_of_ofText read)

end Definition

end Pushdown
