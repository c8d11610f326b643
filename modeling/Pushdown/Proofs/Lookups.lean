import Pushdown.Proofs.Opened
import Pushdown.Proofs.Tables
import Pushdown.Proofs.Verdicts

/-!
# Lookups

What a table is asked for a state, the next symbol and the topmost one are the transitions whose
keys match, where a key that reads or pops nothing matches whatever is there. For an automaton that
was built, these are the transitions that a search tries, although the search passes over symbols
outside the input alphabet and the table does not.
-/

namespace Pushdown

/-- A key is in a state and asks for nothing that is not there. -/
def Transition.Key.Matches (key : Transition.Key) (state : State) (next top : Option Symbol) :
    Prop :=
  key.state = state ∧ (key.reads = none ∨ key.reads = next) ∧ (key.pops = none ∨ key.pops = top)

instance (key : Transition.Key) (state : State) (next top : Option Symbol) :
    Decidable (key.Matches state next top) :=
  inferInstanceAs (Decidable (_ ∧ _))

section MatchingKeys

variable {state : State} {next top : Option Symbol}

theorem nodup_choices (choice : Option Symbol) : (choice.toList.map some ++ [none]).Nodup := by
  cases choice <;> simp

theorem nodup_matchingKeys (state : State) (next top : Option Symbol) :
    (matchingKeys state next top).Nodup := by
  rw [matchingKeys, List.nodup_flatMap]
  refine ⟨?_, ?_⟩
  · intro reads _
    apply (nodup_choices top).map
    intro pops pops' same
    exact (Transition.Key.mk.inj same).2.2
  · apply (nodup_choices next).imp
    intro reads reads' differ key first second
    obtain ⟨pops, -, rfl⟩ := List.mem_map.mp first
    obtain ⟨pops', -, same⟩ := List.mem_map.mp second
    exact differ (Transition.Key.mk.inj same).2.1.symm

/-- The most specific key that matches comes first, and the one that asks for nothing last. -/
example (q : State) (x y : Symbol) : matchingKeys q (some x) (some y) =
    [⟨q, some x, some y⟩, ⟨q, some x, none⟩, ⟨q, none, some y⟩, ⟨q, none, none⟩] := rfl

end MatchingKeys

namespace Table

variable {state : State} {next top : Option Symbol}

theorem lookup_eq_flatMap (table : Table) (state : State) (next top : Option Symbol) :
    table.lookup state next top = (matchingKeys state next top).flatMap table.withKey := by
  cases next <;> cases top <;> simp [lookup, candidates, matchingKeys]

/-- What is found among registered transitions are those that match, and each of them as often as it
was registered. Key by key, with no key twice, they are in order of registration. -/
structure Finds (registered : List Transition) (state : State) (next top : Option Symbol)
    (found : List Transition) : Prop where
  grouped : found = (matchingKeys state next top).flatMap fun key =>
    registered.filter (·.key = key)
  apart : (matchingKeys state next top).Nodup
  count : ∀ t, found.count t = if t.key.Matches state next top then registered.count t else 0

theorem finds_ofTransitions (registered : List Transition) (state : State)
    (next top : Option Symbol) :
    Finds registered state next top ((ofTransitions registered).lookup state next top) := by
  have grouped : (ofTransitions registered).lookup state next top =
      (matchingKeys state next top).flatMap fun key => registered.filter (·.key = key) := by
    rw [lookup_eq_flatMap]
    exact List.flatMap_congr fun key _ => withKey_ofTransitions registered key
  have apart := nodup_matchingKeys state next top
  refine ⟨grouped, apart, ?_⟩
  intro t
  rw [grouped, count_flatMap_filter apart]
  exact if_congr mem_matchingKeys rfl rfl

theorem lookup_ofTransitions_perm (registered : List Transition) (state : State)
    (next top : Option Symbol) : ((ofTransitions registered).lookup state next top).Perm
      (registered.filter (·.key.Matches state next top)) := by
  rw [List.perm_iff_count]
  intro t
  rw [(finds_ofTransitions registered state next top).count]
  split
  · rw [List.count_filter (by simpa)]
  · rw [List.count_eq_zero.mpr (by simp_all)]

end Table

/-! ### What a search tries -/

theorem Stack.isSome_take? {s : Stack} {pops : Option Symbol} (there : pops = none ∨ pops = s.top) :
    (s.take? pops).isSome = true := by
  cases pops with
  | none => rfl
  | some x =>
    have top : s.top = some x := (there.resolve_left nofun).symm
    rw [take?, if_pos top]
    obtain ⟨symbols, n, height⟩ := s
    cases symbols with
    | nil => cases top
    | cons y below => rfl

theorem Transition.isSome_fire? {t : Transition} {c : Configuration} {next : Option Symbol}
    (fits : t.key.Matches c.state next c.stack.top) : (t.fire? c).isSome = true := by
  obtain ⟨-, -, pops⟩ := fits
  rw [fire?, Option.isSome_map]
  exact Stack.isSome_take? pops

namespace Search

/-- Tries transitions in turn from the end of a path: passes over those that do not fire and those
that lead back onto the path, and visits what the others lead to, until one of them does not come
back empty-handed. -/
def tryEach (visit : Step → Progress → Outcome × Progress) (path : Path) (c : Configuration) :
    List Transition → Progress → Outcome × Progress
  | [], progress => (.exhausted, progress)
  | t :: rest, progress =>
    match t.fire? c with
    | none => tryEach visit path c rest progress
    | some next =>
      if onPath path next then tryEach visit path c rest progress
      else
        match visit ⟨next, some t⟩ progress with
        | (.exhausted, progress) => tryEach visit path c rest progress
        | found => found

theorem tryEach_eq_firstOutcome (visit : Step → Progress → Outcome × Progress) (path : Path)
    (c : Configuration) (tried : List Transition) (progress : Progress) :
    tryEach visit path c tried progress =
      firstOutcome visit
        ((tried.filterMap fun t => (t.fire? c).map fun next => (⟨next, some t⟩ : Step)).filter
          (!onPath path ·.configuration)) progress := by
  induction tried generalizing progress with
  | nil => rfl
  | cons t tried ih =>
    rw [tryEach, List.filterMap_cons]
    cases t.fire? c with
    | none => exact ih progress
    | some next =>
      simp only [Option.map_some, List.filter_cons, ih]
      cases onPath path next with
      | true => rfl
      | false => rfl

def follow (a : Automaton) (word : Word) (budget : Budget) (clock : Clock) (path : Path) :
    (room : Nat) → Step → Progress → Outcome × Progress
  | 0, _, progress => (.exhausted, { progress with wasCut := true })
  | room + 1, step, progress => visit a word budget clock room path step progress

theorem firstOutcome_cut (a : Automaton) (word : Word) (budget : Budget) (clock : Clock)
    (path : Path) {steps : List Step} (some : steps ≠ []) (progress : Progress) :
    firstOutcome (follow a word budget clock path 0) steps progress =
      (.exhausted, { progress with wasCut := true }) := by
  induction steps generalizing progress with
  | nil => exact absurd rfl some
  | cons step rest ih =>
    rw [firstOutcome, follow]
    cases rest with
    | nil => rfl
    | cons next rest => exact ih (List.cons_ne_nil next rest) _

end Search

open Search

namespace Automaton.Built

variable {a : Automaton} {registered : List Transition}

theorem candidates_eq_lookup (built : a.Built registered) (word : Word) (c : Configuration) :
    a.candidates word c = a.table.lookup c.state word[c.cursor]? c.stack.top := by
  have found := Table.finds_ofTransitions registered c.state word[c.cursor]? c.stack.top
  rw [built.candidates_eq, built.table_eq, found.grouped]
  rfl

theorem fires (built : a.Built registered) {word : Word} {c : Configuration} {t : Transition}
    (tried : t ∈ a.candidates word c) : (t.fire? c).isSome = true := by
  rw [built.candidates_eq, List.mem_flatMap] at tried
  obtain ⟨key, among, member⟩ := tried
  obtain rfl : t.key = key := of_decide_eq_true (List.mem_filter.mp member).2
  exact Transition.isSome_fire? (mem_keysTried.mp among)

theorem transitions_moves (built : a.Built registered) (word : Word) (c : Configuration) :
    (a.moves word c).map Step.transition =
      (a.table.lookup c.state word[c.cursor]? c.stack.top).map some := by
  rw [← built.candidates_eq_lookup, moves, List.map_filterMap]
  have fires : ∀ t ∈ a.candidates word c, (t.fire? c).isSome = true := fun t => built.fires
  generalize a.candidates word c = tried at fires
  induction tried with
  | nil => rfl
  | cons t rest ih =>
    obtain ⟨first, rest⟩ := List.forall_mem_cons.mp fires
    obtain ⟨next, fired⟩ := Option.isSome_iff_exists.mp first
    rw [List.filterMap_cons, List.map_cons, fired, ← ih rest]
    rfl

/-- What a visit does unless it accepts or gives up: it goes through all that is looked up, and it
comes to a dead end if no step could be taken. -/
theorem visit_eq_tryEach (built : a.Built registered) {word : Word} {budget : Budget}
    {clock : Clock} {room : Nat} {path : Path} {step : Step} {progress : Progress}
    (allowed : budget.isSpent clock (progress.entered + 1) = false)
    (rejected : a.accepts? word step.configuration = none) :
    let c := step.configuration
    let tried := tryEach (follow a word budget clock (step :: path) room) (step :: path) c
      (a.table.lookup c.state word[c.cursor]? c.stack.top)
      { progress with entered := progress.entered + 1 }
    visit a word budget clock room path step progress =
      if room = 0 ∨ fresh (a.moves word) step path = [] then
        (tried.1, { tried.2 with deadEnd := some (step :: path, reasonAt a word step) })
      else tried := by
  intro c tried
  -- Passing over what is on the path already leaves the fresh steps, in the same order.
  have through : tried = firstOutcome (follow a word budget clock (step :: path) room)
      (fresh (a.moves word) step path) { progress with entered := progress.entered + 1 } := by
    simp only [tried, ← built.candidates_eq_lookup, tryEach_eq_firstOutcome]
    rfl
  rw [through]
  rcases visit_cases a word budget clock room path step progress with
    ⟨spent, -⟩ | ⟨-, ⟨criterion, accepts, -⟩⟩ |
    ⟨-, -, ⟨wasCut, ⟨stuck, rfl⟩ | ⟨grows, rfl, rfl⟩, found⟩ | ⟨less, rfl, grows, found⟩⟩
  · rw [allowed] at spent
    cases spent
  · rw [rejected] at accepts
    cases accepts
  · rw [found, if_pos (Or.inr stuck), stuck]
    rfl
  · rw [found, if_pos (Or.inl rfl), firstOutcome_cut a word budget clock _ grows]
  · rw [found, if_neg (not_or.mpr ⟨Nat.succ_ne_zero less, grows⟩)]
    rfl

end Automaton.Built

/-- A lookup finds the transitions that match, as often as they were registered, and no others: key
by key, from the most specific key to the one that asks for nothing, with no key twice, and under a
key in order of registration. The transitions that a search tries from a configuration are those
that a lookup there finds, although a symbol outside the input alphabet is not looked up; all of
them fire, and unless it accepts or gives up the search goes through them in turn. -/
theorem lookup_matches_and_is_followed :
    (∀ registered state next top,
      let found := (Table.ofTransitions registered).lookup state next top
      Table.Finds registered state next top found ∧
        (Table.Index.ofTransitions registered).lookup state next top = found) ∧
    ∀ {a : Automaton} {registered : List Transition}, a.Built registered →
      ∀ (word : Word) (c : Configuration),
        let found := a.table.lookup c.state word[c.cursor]? c.stack.top
        Table.Finds registered c.state word[c.cursor]? c.stack.top found ∧
        a.candidates word c = found ∧
        (∀ t ∈ found, (t.fire? c).isSome = true) ∧
        (a.moves word c).map Step.transition = found.map some ∧
        ∀ (budget : Budget) (clock : Clock) (room : Nat) (path : Path) (step : Step)
          (progress : Progress), step.configuration = c →
          budget.isSpent clock (progress.entered + 1) = false → a.accepts? word c = none →
          let tried := tryEach (follow a word budget clock (step :: path) room) (step :: path) c
            found { progress with entered := progress.entered + 1 }
          visit a word budget clock room path step progress =
            if room = 0 ∨ fresh (a.moves word) step path = [] then
              (tried.1, { tried.2 with deadEnd := some (step :: path, reasonAt a word step) })
            else tried := by
  refine ⟨?_, ?_⟩
  · intro registered state next top
    exact ⟨Table.finds_ofTransitions registered state next top,
      (Table.inStep_ofTransitions registered).lookup state next top⟩
  · intro a registered built word c found
    have tried : a.candidates word c = found := built.candidates_eq_lookup word c
    refine ⟨?_, tried, ?_, built.transitions_moves word c, ?_⟩
    · simp only [found, built.table_eq]
      exact Table.finds_ofTransitions _ _ _ _
    · intro t member
      exact built.fires (tried ▸ member)
    · rintro budget clock room path step progress rfl allowed rejected
      exact built.visit_eq_tryEach allowed rejected

/-- On `b`, which it does not know, `Automaton.roundabout` starts with the move that it would take
second on `a`, which it knows. -/
theorem lookup_matches_and_is_followed_roundabout :
    let a := Automaton.roundabout
    let c := a.initialConfiguration
    let reading : Transition := ⟨⟨"p", some 'a', none⟩, ⟨"q", []⟩⟩
    let detour : Transition := ⟨⟨"p", none, none⟩, ⟨"r", ['X']⟩⟩
    a.readsSymbol 'b' = false ∧ a.candidates ['b'] c = [detour] ∧
    a.table.lookup c.state (some 'b') c.stack.top = [detour] ∧
    a.candidates ['a'] c = [reading, detour] ∧ (reading.fire? c).isSome = true ∧
    visit a ['a'] .standard .still 1 [] ⟨c, none⟩ .initial =
      tryEach (follow a ['a'] .standard .still [⟨c, none⟩] 1) [⟨c, none⟩] c [reading, detour]
        ⟨1, none, false⟩ := by
  intro a c reading detour
  have built := Automaton.roundabout_built
  obtain ⟨-, foreign, -⟩ := lookup_matches_and_is_followed.2 built ['b'] c
  obtain ⟨-, known, fires, -, follows⟩ := lookup_matches_and_is_followed.2 built ['a'] c
  have foundB : a.table.lookup c.state (some 'b') c.stack.top = [detour] := by decide
  have foundA : a.table.lookup c.state (some 'a') c.stack.top = [reading, detour] := by decide
  have first : reading ∈ a.table.lookup c.state (some 'a') c.stack.top := by decide
  refine ⟨by decide, foreign.trans foundB, foundB, known.trans foundA, fires reading first, ?_⟩
  have grows : ¬ (1 = 0 ∨ fresh (a.moves ['a']) ⟨c, none⟩ [] = []) := by decide
  rw [← foundA]
  exact (follows .standard .still 1 [] ⟨c, none⟩ .initial rfl rfl (by decide)).trans (if_neg grows)

end Pushdown
