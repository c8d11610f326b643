import Pushdown.Proofs.Listings
import Pushdown.Proofs.LowerCase
import Pushdown.Proofs.Samples.Automata

/-!
# Questions to the registry

A registry has read nothing or everything. What it is asked leaves it so, and it gives the answers
that a registry gives which is asked for the first time, whatever it was asked before.
-/

namespace Pushdown.Samples

/-- What a registry can be asked; it can also be emptied. -/
inductive Request where
  | load
  | count
  | names
  | atIndex (index : Nat)
  | withName (name : String)
  | summary (index : Nat)
  | search (query : String)
  | textAt (index : Nat)
  | empty

inductive Answer where
  | done
  | number (n : Nat)
  | names (list : List String)
  | definition (found : Except Error Definition)
  | summary (found : Except Error Summary)
  | positions (list : List Nat)
  | text (found : Except Error String)

def Request.perform : Request → Query Answer
  | .load => (fun _ => .done) <$> Samples.load
  | .count => .number <$> Samples.count
  | .names => .names <$> Samples.names
  | .atIndex index => .definition <$> Samples.atIndex index
  | .withName name => .definition <$> Samples.withName name
  | .summary index => .summary <$> Samples.summary index
  | .search query => .positions <$> Samples.search query
  | .textAt index => return .text (Samples.textAt index)
  | .empty => do
    set Registry.empty
    return .done

def performAll : List Request → Query (List Answer)
  | [] => return []
  | request :: rest => return (← request.perform) :: (← performAll rest)

def answerOf {α : Type} (query : Query α) : α := (query.run .empty).run.1

/-- A registry has read nothing, or all samples. -/
def Registry.Settled (registry : Registry) : Prop :=
  registry = .empty ∨ registry = ⟨definitions⟩

variable {registry : Registry}

theorem definitions_ne_nil : definitions ≠ [] := by
  rw [definitions_eq]
  exact List.cons_ne_nil _ _

theorem run_load_of_settled (settled : registry.Settled) :
    load.run registry = pure (definitions, ⟨definitions⟩) := by
  rcases settled with rfl | rfl
  · exact run_load
  · -- The list is any list that is not empty, so that no sample is evaluated.
    have some := definitions_ne_nil
    unfold load
    generalize definitions = all at some
    cases all with
    | nil => exact absurd rfl some
    | cons first rest => rfl

/-! ### What is answered when all samples are read -/

def summarize (index : Nat) (d : Definition) : Summary where
  index
  name := d.name
  initialState := d.initialState
  acceptance := d.acceptance
  stateCount := d.states.length
  ruleCount := d.rules.length
  nondeterministic := d.hasSharedKeys

def pickAt (index : Nat) (all : List Definition) : Except Error Definition :=
  all[index]?.elim (.error (.noSampleAt index)) .ok

def positions (query : String) (all : List Definition) : List Nat :=
  (all.zipIdx.filter fun (d, _) => Text.occursInAnyCase query d.name).map (·.2)

theorem atIndex_eq (index : Nat) : atIndex index = pickAt index <$> load := by
  unfold atIndex
  generalize load = query
  rw [map_eq_pure_bind]
  congr 1
  funext all
  unfold pickAt
  cases all[index]? <;> rfl

theorem summary_eq (index : Nat) :
    summary index = (fun all => (pickAt index all).map (summarize index)) <$> load := by
  unfold summary
  rw [atIndex_eq]
  generalize load = query
  simp only [map_eq_pure_bind, bind_assoc, pure_bind]
  rfl

theorem search_eq (query : String) : search query = positions query <$> load := rfl

/-- A request asks for something in what is read, or reads nothing, or empties the registry. -/
theorem Request.perform_cases (request : Request) :
    (∃ find, request.perform = find <$> Samples.load) ∨
      (∃ answer, request.perform = pure answer) ∨ request = .empty := by
  cases request with
  | load => exact Or.inl ⟨_, rfl⟩
  | count => exact Or.inl ⟨fun all => .number all.length, rfl⟩
  | names => exact Or.inl ⟨fun all => .names (all.map (·.name)), rfl⟩
  | atIndex index =>
    exact Or.inl ⟨fun all => .definition (pickAt index all), by rw [perform, atIndex_eq]; rfl⟩
  | withName name =>
    exact Or.inl ⟨fun all => .definition (pick name all), by rw [perform, withName_eq]; rfl⟩
  | summary index => exact Or.inl ⟨_, by rw [perform, summary_eq, Functor.map_map]⟩
  | search query => exact Or.inl ⟨fun all => .positions (positions query all), rfl⟩
  | textAt index => exact Or.inr (Or.inl ⟨_, rfl⟩)
  | empty => exact Or.inr (Or.inr rfl)

theorem run_map_load {α : Type} (settled : registry.Settled) (find : List Definition → α) :
    (find <$> load).run registry = pure (find definitions, ⟨definitions⟩) := by
  rw [StateT.run_map, run_load_of_settled settled, map_pure]

theorem answerOf_map_load {α : Type} (find : List Definition → α) :
    answerOf (find <$> load) = find definitions := by
  rw [answerOf, run_map_load (Or.inl rfl)]
  rfl

theorem Request.perform_run (request : Request) (settled : registry.Settled) :
    ∃ next : Registry, next.Settled ∧
      request.perform.run registry = pure (answerOf request.perform, next) := by
  rcases request.perform_cases with ⟨find, same⟩ | ⟨answer, same⟩ | rfl
  · rw [same, answerOf_map_load, run_map_load settled]
    exact ⟨_, Or.inr rfl, rfl⟩
  · rw [same]
    exact ⟨registry, settled, rfl⟩
  · exact ⟨.empty, Or.inl rfl, rfl⟩

theorem performAll_run (requests : List Request) (settled : registry.Settled) :
    ∃ last : Registry, last.Settled ∧ (performAll requests).run registry =
      pure (requests.map fun request => answerOf request.perform, last) := by
  induction requests generalizing registry with
  | nil => exact ⟨registry, settled, rfl⟩
  | cons request rest ih =>
    obtain ⟨next, settled, first⟩ := request.perform_run settled
    obtain ⟨last, settled, others⟩ := ih settled
    refine ⟨last, settled, ?_⟩
    rw [performAll, StateT.run_bind, first, pure_bind, StateT.run_bind, others, pure_bind]
    rfl

/-! ### How the answers fit together -/

theorem map_ok_definitions : definitions.map Except.ok = texts.map Definition.ofText := by
  have read {text : String} {d : Definition} (said : (Definition.ofText text).toOption = some d) :
      Definition.ofText text = .ok d := by
    cases outcome : Definition.ofText text with
    | error e =>
      rw [outcome] at said
      cases said
    | ok found =>
      rw [outcome] at said
      exact congrArg _ (Option.some.inj said)
  rw [definitions_eq, texts]
  simp only [List.map_cons, List.map_nil, read ofText_balancedParentheses, read ofText_equalRuns,
    read ofText_evenPalindromes, read ofText_equalCounts]

theorem ascii_name {d : Definition} (member : d ∈ definitions) : Text.IsAscii d.name.toList := by
  rw [definitions_eq] at member
  simp only [List.mem_cons, List.not_mem_nil, or_false] at member
  rcases member with rfl | rfl | rfl | rfl <;> exact Text.isAscii_of_all rfl

section Answers

variable {index : Nat} {d : Definition} {text name : String}

theorem pickAt_eq_ok {all : List Definition} : pickAt index all = .ok d ↔ all[index]? = some d := by
  unfold pickAt
  cases all[index]? <;> simp

theorem textAt_eq_ok : textAt index = .ok text ↔ texts[index]? = some text := by
  unfold textAt
  cases texts[index]? <;> simp

theorem ofText_of_getElem? (there : definitions[index]? = some d) :
    ∃ text, texts[index]? = some text ∧ Definition.ofText text = .ok d := by
  have same := congrArg (·[index]?) map_ok_definitions
  simp only [List.getElem?_map, there, Option.map_some] at same
  exact Option.map_eq_some_iff.mp same.symm

theorem getElem?_of_text (there : texts[index]? = some text) :
    ∃ d, definitions[index]? = some d ∧ Definition.ofText text = .ok d := by
  have same := congrArg (·[index]?) map_ok_definitions
  simp only [List.getElem?_map, there, Option.map_some] at same
  obtain ⟨d, listed, read⟩ := Option.map_eq_some_iff.mp same
  exact ⟨d, listed, read.symm⟩

theorem pick_of_first {all : List Definition} (there : (all.map (·.name))[index]? = some name)
    (first : ∀ j < index, (all.map (·.name))[j]? ≠ some name) :
    pick name all = pickAt index all := by
  rw [List.getElem?_map] at there
  obtain ⟨d, here, named⟩ := Option.map_eq_some_iff.mp there
  obtain ⟨inside, same⟩ := List.getElem?_eq_some_iff.mp here
  have found : all.find? (·.name = name) = some d := by
    rw [List.find?_eq_some_iff_getElem]
    refine ⟨by simpa using named, index, inside, same, ?_⟩
    intro j before
    have other := first j before
    rw [List.getElem?_map, List.getElem?_eq_getElem (Nat.lt_trans before inside)] at other
    simpa using other
  rw [pick, found, pickAt, here]
  rfl

theorem pick_of_not_mem {all : List Definition} (unknown : name ∉ all.map (·.name)) :
    pick name all = .error (.noSampleNamed name) := by
  have none : all.find? (·.name = name) = none := by
    rw [List.find?_eq_none]
    intro d member
    have other : d.name ≠ name := fun same => unknown (List.mem_map.mpr ⟨d, member, same⟩)
    simpa using other
  rw [pick, none]
  rfl

theorem ascending_positions (query : String) (all : List Definition) :
    (positions query all).Pairwise (· < ·) := by
  rw [positions, List.pairwise_map]
  exact (pairwise_zipIdx all).filter _

theorem mem_positions {query : String} {all : List Definition} : index ∈ positions query all ↔
    ∃ d, all[index]? = some d ∧ Text.occursInAnyCase query d.name = true := by
  simp [positions, List.mk_mem_zipIdx_iff_getElem?]

end Answers

/-- How the answers of a registry fit together. Texts are found in names without regard to case, by
way of any mapping to lower case. -/
structure Consistent (image : List Char → Char → List Char → List Char) : Prop where
  given_iff (index : Nat) :
    (∃ d, answerOf (atIndex index) = .ok d) ↔ ∃ text, textAt index = .ok text
  given {index : Nat} {text : String} : textAt index = .ok text →
    answerOf (atIndex index) = Definition.ofText text
  count : (answerOf names).length = answerOf count
  name {index : Nat} {d : Definition} : answerOf (atIndex index) = .ok d →
    (answerOf names)[index]? = some d.name
  first {index : Nat} {name : String} : (answerOf names)[index]? = some name →
    (∀ j < index, (answerOf names)[j]? ≠ some name) →
    answerOf (withName name) = answerOf (atIndex index)
  unknown {name : String} : name ∉ answerOf names →
    answerOf (withName name) = .error (.noSampleNamed name)
  ascending (query : String) : (answerOf (search query)).Pairwise (· < ·)
  found (query : String) (index : Nat) : index ∈ answerOf (search query) ↔
    ∃ name, (answerOf names)[index]? = some name ∧
      Text.mapped image [] query.toList <:+: Text.mapped image [] name.toList

theorem answerOf_names : answerOf names = definitions.map (·.name) := answerOf_map_load _

theorem answerOf_atIndex (index : Nat) : answerOf (atIndex index) = pickAt index definitions := by
  rw [atIndex_eq, answerOf_map_load]

theorem answerOf_withName (name : String) : answerOf (withName name) = pick name definitions := by
  rw [withName_eq, answerOf_map_load]

theorem answerOf_search (query : String) :
    answerOf (search query) = positions query definitions := by
  rw [search_eq, answerOf_map_load]

theorem consistent {image : List Char → Char → List Char → List Char}
    (lowers : Text.LowerCase image) : Consistent image where
  given_iff index := by
    simp only [answerOf_atIndex, pickAt_eq_ok, textAt_eq_ok]
    constructor
    · rintro ⟨d, there⟩
      obtain ⟨text, listed, -⟩ := ofText_of_getElem? there
      exact ⟨text, listed⟩
    · rintro ⟨text, there⟩
      obtain ⟨d, listed, -⟩ := getElem?_of_text there
      exact ⟨d, listed⟩
  given {index text} there := by
    obtain ⟨d, listed, read⟩ := getElem?_of_text (textAt_eq_ok.mp there)
    rw [answerOf_atIndex, pickAt_eq_ok.mpr listed, read]
  count := by
    rw [answerOf_names, List.length_map]
    exact (answerOf_map_load List.length).symm
  name {index d} given := by
    rw [answerOf_atIndex, pickAt_eq_ok] at given
    rw [answerOf_names, List.getElem?_map, given, Option.map_some]
  first {index name} there first := by
    rw [answerOf_names] at there first
    rw [answerOf_withName, answerOf_atIndex, pick_of_first there first]
  unknown {name} absent := by
    rw [answerOf_names] at absent
    rw [answerOf_withName, pick_of_not_mem absent]
  ascending query := by
    rw [answerOf_search]
    exact ascending_positions query definitions
  found query index := by
    rw [answerOf_search, mem_positions, answerOf_names, List.getElem?_map]
    constructor
    · rintro ⟨d, there, occurs⟩
      have member : d ∈ definitions := List.mem_of_getElem? there
      refine ⟨d.name, by rw [there, Option.map_some], ?_⟩
      rw [lowers.infix_iff (ascii_name member)]
      exact Text.occursIn_iff.mp occurs
    · rintro ⟨_, named, occurs⟩
      obtain ⟨d, there, rfl⟩ := Option.map_eq_some_iff.mp named
      have member : d ∈ definitions := List.mem_of_getElem? there
      rw [lowers.infix_iff (ascii_name member)] at occurs
      exact ⟨d, there, Text.occursIn_iff.mpr occurs⟩

/-- Whatever a registry is asked from the start on, and however often it is emptied, it has read
nothing or all samples, and each answer is the one that it gives when nothing was asked before.
These answers are consistent. -/
theorem answers_despite_history :
    (∀ requests : List Request, ∃ last : Registry,
      ((performAll requests).run .empty).run =
        (requests.map fun request => answerOf request.perform, last) ∧
      (last = .empty ∨ last.loaded.map Except.ok = texts.map Definition.ofText)) ∧
    ∀ image, Text.LowerCase image → Consistent image := by
  refine ⟨?_, fun image lowers => consistent lowers⟩
  intro requests
  obtain ⟨last, settled, run⟩ := performAll_run requests (Or.inl rfl)
  refine ⟨last, congrArg Id.run run, settled.imp_right ?_⟩
  intro full
  rw [full]
  dsimp only
  rw [map_ok_definitions]

/-- A registry that is emptied between two questions, and letters lowered one by one. -/
theorem answers_despite_history_emptied :
    (∃ last, ((performAll [.count, .empty, .count]).run .empty).run =
      ([.number 4, .done, .number 4], last)) ∧
    Consistent fun _ c _ => [Text.lowerChar c] := by
  obtain ⟨histories, consistent⟩ := answers_despite_history
  obtain ⟨last, run, -⟩ := histories [.count, .empty, .count]
  have four : answerOf (Request.perform .count) = .number 4 :=
    (answerOf_map_load fun all => Answer.number all.length).trans (by rw [definitions_eq]; rfl)
  refine ⟨⟨last, ?_⟩, consistent _ Text.lowerCase_lowerChar⟩
  rw [run, List.map_cons, List.map_cons, List.map_cons, List.map_nil, four]
  rfl

end Pushdown.Samples
