import Pushdown.Automaton.Moves
import Pushdown.Proofs.Drafts

/-!
# Legal moves

`Move` says what a move is without a word on the order in which moves are tried. `children` gives
that order: by key, and under one key by registration. For an automaton that was built, `moves` is
`children`, and its elements are the legal moves.
-/

namespace Pushdown

/-- What a transition reads at a position of a word, and the position after it. -/
inductive Reads (word : Word) (cursor : Nat) : Option Symbol → Nat → Prop where
  | nothing : Reads word cursor none cursor
  | next {x : Symbol} : word[cursor]? = some x → Reads word cursor (some x) (cursor + 1)

/-- What a transition pops off symbols that stand topmost first, and the symbols below it. -/
inductive Pops (symbols : List Symbol) : Option Symbol → List Symbol → Prop where
  | nothing : Pops symbols none symbols
  | top {x : Symbol} {below : List Symbol} : symbols = x :: below → Pops symbols (some x) below

theorem reads_iff {word : Word} {cursor cursor' : Nat} {reads : Option Symbol} :
    Reads word cursor reads cursor' ↔ (reads = none ∨ reads = word[cursor]?) ∧
      cursor' = if reads.isSome then cursor + 1 else cursor := by
  constructor
  · rintro (_ | next)
    · exact ⟨Or.inl rfl, rfl⟩
    · exact ⟨Or.inr next.symm, rfl⟩
  · rintro ⟨fits, rfl⟩
    cases reads with
    | none => exact .nothing
    | some x => exact .next (by simpa [eq_comm] using fits)

theorem Pops.fits {symbols below : List Symbol} {pops : Option Symbol}
    (popped : Pops symbols pops below) : pops = none ∨ pops = symbols.head? := by
  cases popped with
  | nothing => exact Or.inl rfl
  | top first => exact Or.inr (by rw [first, List.head?_cons])

theorem Pops.subset {symbols below : List Symbol} {pops : Option Symbol}
    (popped : Pops symbols pops below) : below ⊆ symbols := by
  cases popped with
  | nothing => exact List.Subset.refl _
  | top first => exact first ▸ List.subset_cons_self _ _

/-- A move that a registered transition allows. -/
structure Move (a : Automaton) (word : Word) (c : Configuration) (t : Transition)
    (c' : Configuration) : Prop where
  registered : t.target ∈ a.table.get t.key
  leaves : t.key.state = c.state
  reads : Reads word c.cursor t.key.reads c'.cursor
  enters : c'.state = t.target.destination
  replaces : ∃ below, Pops c.stack.toList t.key.pops below ∧
    c'.stack.toList = t.target.pushes.reverse ++ below

namespace Stack

theorem take?_eq_some {s below : Stack} {pops : Option Symbol} :
    s.take? pops = some below ↔ Pops s.toList pops below.toList := by
  cases pops with
  | none =>
    constructor
    · intro taken
      obtain rfl : s = below := Option.some.inj taken
      exact .nothing
    · intro popped
      generalize rest : below.toList = symbols at popped
      cases popped
      rw [ext rest]
      rfl
  | some x =>
    constructor
    · intro taken
      obtain ⟨top, popped⟩ : s.top = some x ∧ s.pop? = some below := by
        simpa [take?, Option.ite_none_right_eq_some] using taken
      obtain ⟨y, symbols⟩ := pop?_eq_some.mp popped
      obtain rfl : y = x := by simpa [Stack.top, symbols] using top
      exact .top symbols
    · rintro (_ | symbols)
      have top : s.top = some x := by simp [Stack.top, symbols]
      rw [take?, if_pos top]
      exact pop?_eq_some.mpr ⟨x, symbols⟩

end Stack

theorem Transition.fire?_eq_some {t : Transition} {c c' : Configuration} :
    t.fire? c = some c' ↔
      c'.state = t.target.destination ∧
      c'.cursor = (if t.key.reads.isSome then c.cursor + 1 else c.cursor) ∧
      ∃ below, Pops c.stack.toList t.key.pops below ∧
        c'.stack.toList = t.target.pushes.reverse ++ below := by
  simp only [fire?, Option.map_eq_some_iff]
  constructor
  · rintro ⟨below, taken, rfl⟩
    exact ⟨rfl, rfl, below.toList, Stack.take?_eq_some.mp taken, Stack.toList_push _ _⟩
  · rintro ⟨state, cursor, below, popped, symbols⟩
    have below_eq : (Stack.ofWord below.reverse).toList = below := by simp
    refine ⟨.ofWord below.reverse, Stack.take?_eq_some.mpr (below_eq.symm ▸ popped), ?_⟩
    obtain ⟨state', cursor', stack'⟩ := c'
    simp only [Configuration.mk.injEq]
    exact ⟨state.symm, cursor.symm, Stack.ext (by simpa using symbols.symm)⟩

/-! ### The order in which moves are tried -/

/-- The keys that match a state, the next symbol and the topmost one: those that read the next
symbol before those that read nothing, and among these those that pop the topmost symbol before
those that pop nothing. -/
def matchingKeys (state : State) (next top : Option Symbol) : List Transition.Key :=
  (next.toList.map some ++ [none]).flatMap fun reads =>
    (top.toList.map some ++ [none]).map fun pops => ⟨state, reads, pops⟩

/-- The keys that fit a configuration: those that read the next symbol before those that read
nothing, and among these those that pop the topmost symbol before those that pop nothing. -/
def keysTried (word : Word) (c : Configuration) : List Transition.Key :=
  (word[c.cursor]?.toList.map some ++ [none]).flatMap fun reads =>
    (c.stack.top.toList.map some ++ [none]).map fun pops => ⟨c.state, reads, pops⟩

/-- The moves from a configuration: key by key, and under one key in order of registration. -/
def children (registered : List Transition) (word : Word) (c : Configuration) : List Step :=
  ((keysTried word c).flatMap fun key => registered.filter (·.key = key)).filterMap fun t =>
    (t.fire? c).map (⟨·, some t⟩)

theorem mem_toList_append {α : Type} {x y : Option α} :
    x ∈ y.toList.map some ++ [none] ↔ x = none ∨ x = y := by
  cases y <;> simp [or_comm]

theorem mem_matchingKeys {state : State} {next top : Option Symbol} {key : Transition.Key} :
    key ∈ matchingKeys state next top ↔ key.state = state ∧
      (key.reads = none ∨ key.reads = next) ∧ (key.pops = none ∨ key.pops = top) := by
  simp only [matchingKeys, List.mem_flatMap, List.mem_map, mem_toList_append]
  constructor
  · rintro ⟨reads, fits, pops, matches', rfl⟩
    exact ⟨rfl, fits, matches'⟩
  · rintro ⟨state, fits, matches'⟩
    exact ⟨key.reads, fits, key.pops, matches', by rw [← state]⟩

theorem mem_keysTried {word : Word} {c : Configuration} {key : Transition.Key} :
    key ∈ keysTried word c ↔ key.state = c.state ∧
      (key.reads = none ∨ key.reads = word[c.cursor]?) ∧
        (key.pops = none ∨ key.pops = c.stack.top) :=
  mem_matchingKeys

namespace Automaton

variable {a : Automaton} {registered : List Transition}

theorem Built.candidates_eq (built : a.Built registered) (word : Word) (c : Configuration) :
    a.candidates word c =
      (keysTried word c).flatMap fun key => registered.filter (·.key = key) := by
  have byPop : ∀ reads, a.table.candidates c.state reads c.stack.top =
      ((c.stack.top.toList.map some ++ [none]).map fun pops => (⟨c.state, reads, pops⟩ :
        Transition.Key)).flatMap fun key => registered.filter (·.key = key) := by
    intro reads
    unfold Table.candidates
    cases c.stack.top <;> simp [built.withKey_eq]
  -- A symbol outside the input alphabet is not looked up, and no transition reads it.
  have foreign : ∀ x, a.readsSymbol x = false →
      a.table.candidates c.state (some x) c.stack.top = [] := by
    intro x unread
    rw [byPop, List.flatMap_eq_nil_iff]
    intro key among
    rw [List.filter_eq_nil_iff]
    intro t member same
    obtain ⟨pops, -, rfl⟩ := List.mem_map.mp among
    have reads : t.key.reads = some x := by rw [of_decide_eq_true same]
    rw [built.readsSymbol member reads] at unread
    cases unread
  simp only [Automaton.candidates, keysTried, List.flatMap_assoc, ← byPop]
  cases word[c.cursor]? with
  | none => simp
  | some x =>
    cases read : a.readsSymbol x with
    | true => simp [read]
    | false => simp [read, foreign x read]

theorem Built.moves_eq (built : a.Built registered) (word : Word) (c : Configuration) :
    a.moves word c = children registered word c := by
  rw [moves, children, built.candidates_eq]

theorem Built.mem_registered (built : a.Built registered) {t : Transition} :
    t ∈ registered ↔ t.target ∈ a.table.get t.key := by
  simp only [built.get_eq, List.mem_map, List.mem_filter, decide_eq_true_eq]
  constructor
  · exact fun member => ⟨t, ⟨member, rfl⟩, rfl⟩
  · rintro ⟨t', ⟨member, key⟩, target⟩
    obtain ⟨key', target'⟩ := t'
    obtain ⟨rfl, rfl⟩ : key' = t.key ∧ target' = t.target := ⟨key, target⟩
    exact member

/-- The steps that are tried from a configuration are its legal moves. -/
theorem Built.mem_moves (built : a.Built registered) {word : Word} {c : Configuration}
    {step : Step} : step ∈ a.moves word c ↔
      ∃ t, step.transition = some t ∧ Move a word c t step.configuration := by
  rw [built.moves_eq, children, List.mem_filterMap]
  simp only [List.mem_flatMap, List.mem_filter, mem_keysTried, decide_eq_true_eq]
  constructor
  · rintro ⟨t, ⟨key, ⟨leaves, fits, -⟩, member, rfl⟩, fired⟩
    obtain ⟨c', fires, rfl⟩ := Option.map_eq_some_iff.mp fired
    obtain ⟨state, cursor, replaces⟩ := Transition.fire?_eq_some.mp fires
    exact ⟨t, rfl, built.mem_registered.mp member, leaves, reads_iff.mpr ⟨fits, cursor⟩, state,
      replaces⟩
  · rintro ⟨t, carried, move⟩
    obtain ⟨c', transition⟩ := step
    obtain rfl : transition = some t := carried
    obtain ⟨fits, cursor⟩ := reads_iff.mp move.reads
    obtain ⟨below, popped, symbols⟩ := move.replaces
    have fires : t.fire? c = some c' :=
      Transition.fire?_eq_some.mpr ⟨move.enters, cursor, below, popped, symbols⟩
    have member := built.mem_registered.mpr move.registered
    refine ⟨t, ⟨t.key, ⟨move.leaves, fits, popped.fits⟩, member, rfl⟩, ?_⟩
    rw [fires, Option.map_some]

end Automaton

end Pushdown
