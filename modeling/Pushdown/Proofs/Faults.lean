import Mathlib.Data.List.Sort
import Pushdown.Proofs.Histories
import Pushdown.Proofs.Reachability

/-!
# Faults of definitions

What may be wrong with a definition, put apart from how it is looked for, and the message that says
so. A check names all that it is there to find, and the fault that ranks first decides.
-/

namespace Pushdown

namespace Definition

/-- The state at a position equals one before it, or one of those already seen. -/
def Repeats (seen states : List State) (i : Nat) (state : State) : Prop :=
  states[i]? = some state ∧ (state ∈ seen ∨ state ∈ states.take i)

def alphabet (d : Definition) : Alphabet → List Symbol
  | .input => d.inputAlphabet
  | .stack => d.stackAlphabet

/-- The symbols that a rule names, each with the alphabet that it has to be in: the one read, the
one popped, then those pushed. -/
def symbolsOf (rule : Rule) : List (Symbol × Alphabet) :=
  rule.reads.toList.map (·, .input) ++
    (rule.pops.toList.map (·, .stack) ++ rule.pushes.map (·, .stack))

def symbols (d : Definition) : List (Symbol × Alphabet) :=
  d.bottom.toList.map (·, .stack) ++ d.rules.flatMap symbolsOf

/-- Something that is wrong with a definition, with its rank among all that is, the error that it is
reported as and the message of that. -/
inductive Fault (d : Definition) : Nat → Error → String → Prop where
  | noStates : d.states = [] →
    Fault d 0 .noStates ("Definition validation error: " ++ "No states defined")
  /-- The first state that is declared once more. -/
  | repeatedState {i : Nat} {state : State} : Repeats [] d.states i state →
    (∀ j < i, ∀ other, ¬ Repeats [] d.states j other) →
    Fault d 0 (.repeatedState state)
      ("Definition validation error: " ++ s!"State '{state}' is declared more than once")
  | undeclaredInitial : d.initialState ∉ d.states →
    Fault d 1 (.undeclaredInitial d.initialState)
      ("Invalid reference: " ++ s!"Invalid start state: {d.initialState}")
  /-- All final states that are not declared, in ascending order. -/
  | undeclaredFinals {listed : List State} : listed ≠ [] → listed.Pairwise (· < ·) →
    (∀ state, state ∈ listed ↔ state ∈ d.finalStates ∧ state ∉ d.states) →
    Fault d 2 (.undeclaredFinals listed)
      ("Invalid reference: " ++ s!"Final states are not declared: {Text.quoteList listed}")
  /-- All rules with an end that is not declared, in ascending order of their positions. -/
  | undeclaredEnds {listed : List (Nat × Rule)} : listed ≠ [] → listed.Pairwise (·.1 < ·.1) →
    (∀ i rule, (i, rule) ∈ listed ↔
      d.rules[i]? = some rule ∧ (rule.origin ∉ d.states ∨ rule.destination ∉ d.states)) →
    Fault d 3 (.undeclaredEnds listed)
      ("Invalid reference: " ++
        let ends := listed.map fun (i, rule) => s!"{rule.origin}[{i}] -> {rule.destination}"
        s!"Transitions reference undefined states: {Text.quoteList ends}")
  /-- The first symbol that is not in its alphabet. -/
  | foreignSymbol {before after : List (Symbol × Alphabet)} {x : Symbol} {alphabet : Alphabet} :
    d.symbols = before ++ (x, alphabet) :: after → x ∉ d.alphabet alphabet →
    (∀ named ∈ before, named.1 ∈ d.alphabet named.2) →
    Fault d 4 (.foreignSymbol x alphabet) s!"Symbol '{x}' is not in the {alphabet.label} alphabet"

variable {d : Definition} {e : Error} {rank : Nat} {text : String}

theorem Fault.text_eq (fault : d.Fault rank e text) : text = e.message := by
  cases fault with
  | foreignSymbol => exact String.empty_append.symm
  | _ => rfl

/-! ### What the checks find -/

theorem firstRepeated_eq_some {seen states : List State} {state : State} :
    firstRepeated seen states = some state ↔
      ∃ i, Repeats seen states i state ∧ ∀ j < i, ∀ other, ¬ Repeats seen states j other := by
  induction states generalizing seen with
  | nil => simp [firstRepeated, Repeats]
  | cons first rest ih =>
    have here {other : State} :
        Repeats seen (first :: rest) 0 other ↔ first = other ∧ first ∈ seen := by
      simp only [Repeats, List.getElem?_cons_zero, Option.some.injEq, List.take_zero,
        List.not_mem_nil, or_false]
      constructor <;> rintro ⟨rfl, known⟩ <;> exact ⟨rfl, known⟩
    have later {i : Nat} {other : State} :
        Repeats seen (first :: rest) (i + 1) other ↔ Repeats (first :: seen) rest i other := by
      simp only [Repeats, List.getElem?_cons_succ, List.take_succ_cons, List.mem_cons]
      tauto
    rw [firstRepeated]
    by_cases known : first ∈ seen
    · rw [if_pos (by simpa using known), Option.some.injEq]
      constructor
      · rintro rfl
        exact ⟨0, here.mpr ⟨rfl, known⟩, fun j before => absurd before (Nat.not_lt_zero j)⟩
      · rintro ⟨i, repeats, least⟩
        cases i with
        | zero => exact (here.mp repeats).1
        | succ i => exact absurd (here.mpr ⟨rfl, known⟩) (least 0 (Nat.succ_pos i) first)
    · rw [if_neg (by simpa using known), ih]
      constructor
      · rintro ⟨i, repeats, least⟩
        refine ⟨i + 1, later.mpr repeats, ?_⟩
        intro j before other
        cases j with
        | zero => exact fun again => known (here.mp again).2
        | succ j => exact later.not.mpr (least j (Nat.lt_of_succ_lt_succ before) other)
      · rintro ⟨i, repeats, least⟩
        cases i with
        | zero => exact absurd (here.mp repeats).2 known
        | succ i =>
          refine ⟨i, later.mp repeats, ?_⟩
          intro j before other
          exact later.not.mp (least (j + 1) (Nat.succ_lt_succ before) other)

theorem checkStates_eq_error : d.checkStates = .error e ↔ ∃ text, d.Fault 0 e text := by
  unfold checkStates
  by_cases empty : d.states = []
  · rw [if_pos (by simpa using empty), Except.error.injEq]
    constructor
    · rintro rfl
      exact ⟨_, .noStates empty⟩
    · rintro ⟨text, fault⟩
      cases fault with
      | noStates => rfl
      | repeatedState repeats => simp [Repeats, empty] at repeats
  · rw [if_neg (by simpa using empty)]
    constructor
    · intro refused
      split at refused
      next state repeated =>
        obtain rfl := Except.error.inj refused
        obtain ⟨i, repeats, least⟩ := firstRepeated_eq_some.mp repeated
        exact ⟨_, .repeatedState repeats least⟩
      · cases refused
    · rintro ⟨text, fault⟩
      cases fault with
      | noStates none => exact absurd none empty
      | repeatedState repeats least =>
        rw [firstRepeated_eq_some.mpr ⟨_, repeats, least⟩]

theorem checkInitial_eq_error : d.checkInitial = .error e ↔ ∃ text, d.Fault 1 e text := by
  unfold checkInitial
  constructor
  · intro refused
    split at refused
    · cases refused
    · obtain rfl := Except.error.inj refused
      exact ⟨_, .undeclaredInitial ‹_›⟩
  · rintro ⟨text, fault⟩
    cases fault with
    | undeclaredInitial unknown => rw [if_neg unknown]

theorem mem_undeclaredFinals {state : State} :
    state ∈ d.undeclaredFinals ↔ state ∈ d.finalStates ∧ state ∉ d.states := by
  simp [undeclaredFinals]

theorem ascending_undeclaredFinals (d : Definition) : d.undeclaredFinals.Pairwise (· < ·) := by
  have distinct : d.undeclaredFinals.Nodup :=
    (List.mergeSort_perm _ _).nodup_iff.mpr (nodup_eraseDups _)
  exact (State.sorted_mergeSort _).imp₂ (fun _ _ => lt_of_le_of_ne) distinct

theorem checkFinals_eq_error : d.checkFinals = .error e ↔ ∃ text, d.Fault 2 e text := by
  unfold checkFinals
  constructor
  · intro refused
    split at refused
    · cases refused
    · obtain rfl := Except.error.inj refused
      exact ⟨_, .undeclaredFinals ‹_› d.ascending_undeclaredFinals fun _ => mem_undeclaredFinals⟩
  · rintro ⟨text, fault⟩
    cases fault with
    | @undeclaredFinals listed some ascending all =>
      obtain rfl : listed = d.undeclaredFinals :=
        ascending.eq_of_mem_iff d.ascending_undeclaredFinals
          fun state => (all state).trans mem_undeclaredFinals.symm
      split
      · exact absurd ‹_› some
      · rfl

theorem mem_undeclaredEnds {i : Nat} {rule : Rule} : (i, rule) ∈ d.undeclaredEnds ↔
    d.rules[i]? = some rule ∧ (rule.origin ∉ d.states ∨ rule.destination ∉ d.states) := by
  simp [undeclaredEnds, List.mk_mem_zipIdx_iff_getElem?]

theorem ascending_undeclaredEnds (d : Definition) :
    d.undeclaredEnds.Pairwise (·.1 < ·.1) := by
  rw [undeclaredEnds, List.pairwise_map]
  exact (pairwise_zipIdx d.rules).filter _

theorem checkEnds_eq_error : d.checkEnds = .error e ↔ ∃ text, d.Fault 3 e text := by
  unfold checkEnds
  constructor
  · intro refused
    split at refused
    · cases refused
    · obtain rfl := Except.error.inj refused
      exact ⟨_, .undeclaredEnds ‹_› d.ascending_undeclaredEnds fun _ _ => mem_undeclaredEnds⟩
  · rintro ⟨text, fault⟩
    cases fault with
    | @undeclaredEnds listed some ascending all =>
      have : Std.Irrefl fun a b : Nat × Rule => a.1 < b.1 := ⟨fun a => Nat.lt_irrefl a.1⟩
      have : Std.Antisymm fun a b : Nat × Rule => a.1 < b.1 :=
        ⟨fun a b less more => absurd more (Nat.lt_asymm less)⟩
      obtain rfl : listed = d.undeclaredEnds :=
        ascending.eq_of_mem_iff d.ascending_undeclaredEnds
          fun (i, rule) => (all i rule).trans mem_undeclaredEnds.symm
      split
      · exact absurd ‹_› some
      · rfl

theorem find?_undeclared (d : Definition) (alphabet : Alphabet) (xs : List Symbol) :
    (xs.map (·, alphabet)).find? (fun named => named.1 ∉ d.alphabet named.2) =
      xs.findSome? (foreignTo (d.alphabet alphabet) alphabet) := by
  rw [List.find?_map, ← map_find?_eq]
  rfl

theorem foreignSymbolOf_eq_find? (rule : Rule) : d.foreignSymbolOf rule =
    (symbolsOf rule).find? fun named => named.1 ∉ d.alphabet named.2 := by
  rw [foreignSymbolOf_eq, symbolsOf, List.find?_append, List.find?_append, find?_undeclared,
    find?_undeclared, find?_undeclared]
  rfl

theorem foreignSymbol_eq_find? :
    d.foreignSymbol = d.symbols.find? fun named => named.1 ∉ d.alphabet named.2 := by
  rw [foreignSymbol_eq, symbols, List.find?_append, find?_undeclared, List.find?_flatMap,
    funext foreignSymbolOf_eq_find?]
  rfl

theorem checkSymbols_eq_error : d.checkSymbols = .error e ↔ ∃ text, d.Fault 4 e text := by
  unfold checkSymbols
  rw [foreignSymbol_eq_find?]
  constructor
  · intro refused
    split at refused
    next x alphabet found =>
      obtain rfl := Except.error.inj refused
      obtain ⟨foreign, before, after, split, inside⟩ := List.find?_eq_some_iff_append.mp found
      exact ⟨_, .foreignSymbol split (by simpa using foreign) (by simpa using inside)⟩
    · cases refused
  · rintro ⟨text, fault⟩
    cases fault with
    | @foreignSymbol before after x alphabet split foreign inside =>
      have found : d.symbols.find? (fun named => named.1 ∉ d.alphabet named.2) =
          some (x, alphabet) :=
        List.find?_eq_some_iff_append.mpr
          ⟨by simpa using foreign, before, after, split, by simpa using inside⟩
      rw [found]

/-! ### What is reported -/

theorem foundBy_eq_some {check : Definition → Except Error Unit} :
    d.foundBy check = some e ↔ check d = .error e := by
  unfold foundBy
  cases check d <;> simp

def foundAt (d : Definition) (rank : Nat) : Option Error := checks[rank]?.bind d.foundBy

/-- Each check finds the faults of its rank, and no faults have other ranks. -/
theorem foundAt_eq_some : d.foundAt rank = some e ↔ ∃ text, d.Fault rank e text := by
  match rank with
  | 0 => exact foundBy_eq_some.trans checkStates_eq_error
  | 1 => exact foundBy_eq_some.trans checkInitial_eq_error
  | 2 => exact foundBy_eq_some.trans checkFinals_eq_error
  | 3 => exact foundBy_eq_some.trans checkEnds_eq_error
  | 4 => exact foundBy_eq_some.trans checkSymbols_eq_error
  | rank + 5 => exact iff_of_false nofun fun ⟨text, fault⟩ => nomatch fault

theorem foundAt_eq_none : d.foundAt rank = none ↔ ∀ e text, ¬ d.Fault rank e text := by
  simp only [Option.eq_none_iff_forall_ne_some, ne_eq, foundAt_eq_some, not_exists]

theorem check_eq_error : d.check = .error e ↔
    ∃ rank, d.foundAt rank = some e ∧ ∀ lower < rank, d.foundAt lower = none := by
  have first : d.check = .error e ↔ checks.findSome? d.foundBy = some e := by
    rw [← List.head?_filterMap, ← errors, check]
    cases d.errors <;> simp
  rw [first, List.findSome?_eq_some_iff]
  unfold foundAt
  constructor
  · rintro ⟨before, check, after, split, found, quiet⟩
    refine ⟨before.length, by simp [split, found], ?_⟩
    intro lower less
    rw [split, List.getElem?_append_left less, List.getElem?_eq_getElem less]
    exact quiet _ (List.getElem_mem less)
  · rintro ⟨rank, found, quiet⟩
    obtain ⟨check, there, found⟩ := Option.bind_eq_some_iff.mp found
    obtain ⟨inside, rfl⟩ := List.getElem?_eq_some_iff.mp there
    refine ⟨checks.take rank, checks[rank], checks.drop (rank + 1), by simp, found, ?_⟩
    intro earlier member
    obtain ⟨lower, less, rfl⟩ := List.mem_take_iff_getElem.mp member
    have silent := quiet lower (by omega)
    rwa [List.getElem?_eq_getElem (by omega)] at silent

theorem check_eq_ok_iff : d.check = .ok () ↔ ∀ rank, d.foundAt rank = none := by
  have clean : d.check = .ok () ↔ d.errors = [] := by
    rw [check]
    cases d.errors <;> simp
  rw [clean, errors, List.filterMap_eq_nil_iff]
  constructor
  · intro quiet rank
    exact Option.bind_eq_none_iff.mpr fun check there => quiet check (List.mem_of_getElem? there)
  · intro quiet check member
    obtain ⟨rank, there⟩ := List.mem_iff_getElem?.mp member
    exact Option.bind_eq_none_iff.mp (quiet rank) check there

/-- A definition is refused for the fault that ranks first, in the words of that fault, and passes
if it has none. Faults in the declaration of its states are a matter of validation and rank first,
those in its references to states come next, and a symbol outside its alphabet comes last. -/
theorem check_reports_first_fault (d : Definition) :
    (∀ e, d.check = .error e ↔ ∃ rank, d.Fault rank e e.message ∧
      ∀ lower < rank, ∀ other text, ¬ d.Fault lower other text) ∧
    (d.check = .ok () ↔ ∀ rank e text, ¬ d.Fault rank e text) ∧
    ∀ rank e text, d.Fault rank e text → e.category =
      if rank = 0 then .validation else if rank ≤ 3 then .reference else .alphabet := by
  have reported {rank : Nat} {e : Error} :
      d.Fault rank e e.message ↔ ∃ text, d.Fault rank e text :=
    ⟨fun fault => ⟨_, fault⟩, fun ⟨_, fault⟩ => fault.text_eq ▸ fault⟩
  refine ⟨?_, ?_, ?_⟩
  · intro e
    simp only [check_eq_error, reported, foundAt_eq_some, foundAt_eq_none]
  · simp only [check_eq_ok_iff, foundAt_eq_none]
  · intro rank e text fault
    cases fault <;> rfl

/-- Of its three faults the one in its final states ranks first. -/
example : check ⟨"Amiss", ["p"], [], [], "p", ["q", "q"], .either, none,
    [⟨"r", some 'a', none, "p", []⟩]⟩ = .error (.undeclaredFinals ["q"]) := by decide +kernel

end Definition

end Pushdown
