import Pushdown.Definition.Check
import Pushdown.Proofs.Drafts
import Pushdown.Proofs.Listings

/-!
# Well-formed definitions

A definition passes `check` exactly when it is well-formed. The checks before that of the symbols
are about states only; `Rooted` collects what they look for.
-/

namespace Pushdown

namespace Definition

/-- The states of a definition are declared once each, and it names no others. -/
structure Rooted (d : Definition) : Prop where
  states_ne_nil : d.states ≠ []
  nodup : d.states.Nodup
  initial : d.initialState ∈ d.states
  finals : ∀ state ∈ d.finalStates, state ∈ d.states
  ends : ∀ rule ∈ d.rules, rule.origin ∈ d.states ∧ rule.destination ∈ d.states

/-- The symbols that a definition names are in their alphabets. -/
structure Spelled (d : Definition) : Prop where
  bottom : ∀ x ∈ d.bottom, x ∈ d.stackAlphabet
  reads : ∀ rule ∈ d.rules, ∀ x ∈ rule.reads, x ∈ d.inputAlphabet
  pops : ∀ rule ∈ d.rules, ∀ x ∈ rule.pops, x ∈ d.stackAlphabet
  pushes : ∀ rule ∈ d.rules, ∀ x ∈ rule.pushes, x ∈ d.stackAlphabet

structure WellFormed (d : Definition) : Prop where
  rooted : d.Rooted
  spelled : d.Spelled

theorem findsRepeated : FindsRepeated id id firstRepeated where
  nil _ := rfl
  cons seen state rest := by simp [firstRepeated]

theorem firstRepeated_eq_none {seen states : List State} :
    firstRepeated seen states = none ↔ states.Nodup ∧ ∀ state ∈ states, state ∉ seen := by
  rw [findsRepeated.eq_none_iff, List.map_id]
  rfl

variable {d : Definition}

theorem checkStates_eq_ok : d.checkStates = .ok () ↔ d.states ≠ [] ∧ d.states.Nodup := by
  unfold checkStates
  by_cases empty : d.states = []
  · simp [empty]
  rw [if_neg (by simpa using empty)]
  cases repeated : firstRepeated [] d.states with
  | none =>
    have distinct := (firstRepeated_eq_none.mp repeated).1
    exact iff_of_true rfl ⟨empty, distinct⟩
  | some state =>
    have repeats : ¬ d.states.Nodup := by
      intro distinct
      have passed := firstRepeated_eq_none.mpr ⟨distinct, fun _ _ => List.not_mem_nil⟩
      rw [repeated] at passed
      cases passed
    exact iff_of_false nofun fun ⟨_, distinct⟩ => repeats distinct

theorem checkInitial_eq_ok : d.checkInitial = .ok () ↔ d.initialState ∈ d.states := by
  simp [checkInitial]

theorem undeclaredFinals_eq_nil :
    d.undeclaredFinals = [] ↔ ∀ state ∈ d.finalStates, state ∈ d.states := by
  simp [undeclaredFinals, List.eq_nil_iff_forall_not_mem]

theorem checkFinals_eq_ok :
    d.checkFinals = .ok () ↔ ∀ state ∈ d.finalStates, state ∈ d.states := by
  rw [← undeclaredFinals_eq_nil, checkFinals]
  cases d.undeclaredFinals <;> simp

theorem undeclaredEnds_eq_nil :
    d.undeclaredEnds = [] ↔
      ∀ rule ∈ d.rules, rule.origin ∈ d.states ∧ rule.destination ∈ d.states := by
  have numbered : d.undeclaredEnds = [] ↔
      ∀ entry ∈ d.rules.zipIdx, entry.1.origin ∈ d.states ∧ entry.1.destination ∈ d.states := by
    simp [undeclaredEnds]
  rw [numbered]
  constructor
  · intro declared rule member
    have numbers : rule ∈ d.rules.zipIdx.map Prod.fst := by rwa [List.zipIdx_map_fst]
    obtain ⟨entry, numbered, rfl⟩ := List.mem_map.mp numbers
    exact declared entry numbered
  · intro declared entry member
    exact declared entry.1 (List.fst_mem_of_mem_zipIdx member)

theorem checkEnds_eq_ok :
    d.checkEnds = .ok () ↔
      ∀ rule ∈ d.rules, rule.origin ∈ d.states ∧ rule.destination ∈ d.states := by
  rw [← undeclaredEnds_eq_nil, checkEnds]
  cases d.undeclaredEnds <;> simp

theorem foreignSymbolOf_eq_none {rule : Rule} :
    d.foreignSymbolOf rule = none ↔ (∀ x ∈ rule.reads, x ∈ d.inputAlphabet) ∧
      (∀ x ∈ rule.pops, x ∈ d.stackAlphabet) ∧ ∀ x ∈ rule.pushes, x ∈ d.stackAlphabet := by
  unfold foreignSymbolOf
  cases foreign : rule.reads.filter (· ∉ d.inputAlphabet) with
  | none =>
    have reads : ∀ x ∈ rule.reads, x ∈ d.inputAlphabet := by
      intro x named
      simpa using Option.filter_eq_none_iff.mp foreign x named
    have stack : ((rule.pops.toList ++ rule.pushes).find? (· ∉ d.stackAlphabet)).map
        (·, Alphabet.stack) = none ↔ (∀ x ∈ rule.pops, x ∈ d.stackAlphabet) ∧
          ∀ x ∈ rule.pushes, x ∈ d.stackAlphabet := by
      simp
    rw [stack]
    exact (and_iff_right reads).symm
  | some x =>
    obtain ⟨named, outside⟩ := Option.filter_eq_some_iff.mp foreign
    refine iff_of_false nofun ?_
    rintro ⟨reads, -, -⟩
    exact of_decide_eq_true outside (reads x named)

theorem checkSymbols_eq_ok : d.checkSymbols = .ok () ↔ d.Spelled := by
  have none : d.checkSymbols = .ok () ↔ d.foreignSymbol = none := by
    unfold checkSymbols
    cases d.foreignSymbol <;> simp
  rw [none, foreignSymbol]
  cases foreign : d.bottom.filter (· ∉ d.stackAlphabet) with
  | none =>
    have bottom : ∀ x ∈ d.bottom, x ∈ d.stackAlphabet := by
      intro x named
      simpa using Option.filter_eq_none_iff.mp foreign x named
    simp only [List.findSome?_eq_none_iff, foreignSymbolOf_eq_none]
    constructor
    · intro clean
      exact ⟨bottom, fun rule member => (clean rule member).1,
        fun rule member => (clean rule member).2.1, fun rule member => (clean rule member).2.2⟩
    · intro spelled rule member
      exact ⟨spelled.reads rule member, spelled.pops rule member, spelled.pushes rule member⟩
  | some x =>
    obtain ⟨named, outside⟩ := Option.filter_eq_some_iff.mp foreign
    refine iff_of_false nofun ?_
    intro spelled
    exact of_decide_eq_true outside (spelled.bottom x named)

/-- What is ranked first decides, so the checks might as well be made one after another until one
of them finds something. -/
theorem check_eq (d : Definition) : d.check = (do
    d.checkStates
    d.checkInitial
    d.checkFinals
    d.checkEnds
    d.checkSymbols) := by
  simp only [check, errors, checks, foundBy, List.filterMap_cons, List.filterMap_nil]
  cases d.checkStates <;> cases d.checkInitial <;> cases d.checkFinals <;> cases d.checkEnds <;>
    cases d.checkSymbols <;> rfl

/-- Up to the check of its symbols, a definition passes when it is rooted. -/
theorem check_eq_of_rooted (rooted : d.Rooted) : d.check = d.checkSymbols := by
  rw [check_eq, checkStates_eq_ok.mpr ⟨rooted.states_ne_nil, rooted.nodup⟩,
    checkInitial_eq_ok.mpr rooted.initial, checkFinals_eq_ok.mpr rooted.finals,
    checkEnds_eq_ok.mpr rooted.ends]
  rfl

theorem check_eq_ok : d.check = .ok () ↔ d.WellFormed := by
  rw [check_eq, check_then_eq_ok, check_then_eq_ok, check_then_eq_ok, check_then_eq_ok,
    checkStates_eq_ok, checkInitial_eq_ok, checkFinals_eq_ok, checkEnds_eq_ok, checkSymbols_eq_ok]
  constructor
  · rintro ⟨⟨some, distinct⟩, initial, finals, ends, spelled⟩
    exact ⟨⟨some, distinct, initial, finals, ends⟩, spelled⟩
  · rintro ⟨rooted, spelled⟩
    exact ⟨⟨rooted.states_ne_nil, rooted.nodup⟩, rooted.initial, rooted.finals, rooted.ends,
      spelled⟩

/-- The checks before that of the symbols blame no symbol. -/
theorem category_of_checkStates {e : Error} (refused : d.checkStates = .error e) :
    e.category ≠ .alphabet := by
  unfold checkStates at refused
  split at refused
  · cases refused; nofun
  · split at refused <;> cases refused
    nofun

theorem category_of_checkInitial {e : Error} (refused : d.checkInitial = .error e) :
    e.category ≠ .alphabet := by
  unfold checkInitial at refused
  split at refused <;> cases refused
  nofun

theorem category_of_checkFinals {e : Error} (refused : d.checkFinals = .error e) :
    e.category ≠ .alphabet := by
  unfold checkFinals at refused
  split at refused <;> cases refused
  nofun

theorem category_of_checkEnds {e : Error} (refused : d.checkEnds = .error e) :
    e.category ≠ .alphabet := by
  unfold checkEnds at refused
  split at refused <;> cases refused
  nofun

/-- Only a rooted definition is refused for a symbol. -/
theorem rooted_of_check_eq_error {e : Error} (refused : d.check = .error e)
    (symbol : e.category = .alphabet) : d.Rooted := by
  rw [check_eq] at refused
  rcases check_then_eq_error.mp refused with blamed | ⟨states, refused⟩
  · exact absurd symbol (category_of_checkStates blamed)
  rcases check_then_eq_error.mp refused with blamed | ⟨initial, refused⟩
  · exact absurd symbol (category_of_checkInitial blamed)
  rcases check_then_eq_error.mp refused with blamed | ⟨finals, refused⟩
  · exact absurd symbol (category_of_checkFinals blamed)
  rcases check_then_eq_error.mp refused with blamed | ⟨ends, -⟩
  · exact absurd symbol (category_of_checkEnds blamed)
  obtain ⟨declared, distinct⟩ := checkStates_eq_ok.mp states
  exact ⟨declared, distinct, checkInitial_eq_ok.mp initial, checkFinals_eq_ok.mp finals,
    checkEnds_eq_ok.mp ends⟩

end Definition

end Pushdown
