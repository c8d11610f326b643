import Mathlib.Data.Finset.Prod
import Pushdown.Proofs.Confinement
import Pushdown.Proofs.Deepening
import Pushdown.Proofs.FrozenDrafts

/-!
# Deciding by a finite number of configurations

Where the stack grows only with what is read, it stays as high as the word allows, and the automaton
has a finite number of configurations on the word. A path without detours is not longer than that,
so a limit beyond it cuts no path, and with enough steps every run decides the language.
-/

namespace Pushdown

open Search

/-- A transition that reads nothing pushes no more symbols than it pops. -/
def GrowsByReading (registered : List Transition) : Prop :=
  ∀ t ∈ registered, t.key.reads = none → t.target.pushes.length ≤ t.key.pops.toList.length

instance (registered : List Transition) : Decidable (GrowsByReading registered) :=
  inferInstanceAs (Decidable (∀ t ∈ registered, _ → _))

def longestPush (registered : List Transition) : Nat :=
  (registered.map fun t => t.target.pushes.length).max?.getD 0

def wordsUpTo (symbols : Finset Symbol) : (length : Nat) → Finset Word
  | 0 => {[]}
  | length + 1 => insert [] ((symbols ×ˢ wordsUpTo symbols length).image fun (x, word) => x :: word)

theorem mem_wordsUpTo {symbols : Finset Symbol} {length : Nat} {word : Word} :
    word ∈ wordsUpTo symbols length ↔ word.length ≤ length ∧ ∀ x ∈ word, x ∈ symbols := by
  induction length generalizing word with
  | zero =>
    rw [wordsUpTo, Finset.mem_singleton, Nat.le_zero, List.length_eq_zero_iff]
    exact ⟨fun empty => ⟨empty, empty ▸ nofun⟩, And.left⟩
  | succ length ih =>
    cases word with
    | nil => simp [wordsUpTo]
    | cons x word => simp [wordsUpTo, ih, and_left_comm]

namespace Automaton

def stackSymbols (a : Automaton) (registered : List Transition) : Finset Symbol :=
  (a.bottom.toList ++ registered.flatMap fun t => t.key.pops.toList ++ t.target.pushes).toFinset

/-- A state of the automaton, a position in the word, and a stack of symbols that the automaton
names, at most one more than can be pushed while the word is read. -/
def situations (a : Automaton) (registered : List Transition) (word : Word) :
    Finset (State × Nat × Word) :=
  a.states.toFinset ×ˢ Finset.range (word.length + 1) ×ˢ
    wordsUpTo (a.stackSymbols registered) (1 + word.length * longestPush registered)

end Automaton

variable {a : Automaton} {word : Word} {registered : List Transition} {budget : Budget}
  {clock : Clock}

theorem length_pushes_le {t : Transition} (member : t ∈ registered) :
    t.target.pushes.length ≤ longestPush registered :=
  List.le_max?_getD_of_mem (List.mem_map_of_mem member)

theorem Pops.length_eq {symbols below : List Symbol} {pops : Option Symbol}
    (popped : Pops symbols pops below) : symbols.length = below.length + pops.toList.length := by
  cases popped with
  | nothing => rfl
  | top first => rw [first]; rfl

/-! ### How high the stack gets -/

/-- A move that reads nothing does not make the stack higher, and one that reads a symbol does so by
the longest push at most. -/
theorem Move.height_le (built : a.Built registered) (grows : GrowsByReading registered)
    {c c' : Configuration} {t : Transition} (move : Move a word c t c') :
    c'.stack.toList.length + c.cursor * longestPush registered ≤
      c.stack.toList.length + c'.cursor * longestPush registered := by
  have member : t ∈ registered := built.mem_registered.mpr move.registered
  have pushes := length_pushes_le member
  have silent := grows t member
  obtain ⟨below, popped, symbols⟩ := move.replaces
  have height := popped.length_eq
  rw [symbols, List.length_append, List.length_reverse]
  have reads := move.reads
  generalize t.key.reads = symbol at reads silent
  generalize c'.cursor = cursor at reads ⊢
  cases reads with
  | nothing =>
    have := silent rfl
    omega
  | next =>
    rw [Nat.succ_mul]
    omega

theorem Computation.height_le (built : a.Built registered) (grows : GrowsByReading registered)
    {steps : List Step} {c : Configuration} (h : Computation a word steps c) :
    c.stack.toList.length ≤ 1 + c.cursor * longestPush registered := by
  induction h with
  | start =>
    rw [Automaton.initialConfiguration, Stack.toList_ofWord, List.length_reverse]
    cases a.bottom <;> simp
  | move _ move ih =>
    have := move.height_le built grows
    omega

/-! ### How many configurations there are -/

def Configuration.situation (c : Configuration) : State × Nat × Word :=
  (c.state, c.cursor, c.stack.toList)

theorem Configuration.situation_injective : Function.Injective situation := by
  rintro ⟨state, cursor, stack⟩ ⟨state', cursor', stack'⟩ same
  obtain ⟨rfl, rfl, symbols⟩ :
      state = state' ∧ cursor = cursor' ∧ stack.toList = stack'.toList := by
    simpa [situation] using same
  rw [Stack.ext symbols]

theorem Computation.situation_mem (built : a.Built registered) (grows : GrowsByReading registered)
    {steps : List Step} {c : Configuration} (h : Computation a word steps c) :
    c.situation ∈ a.situations registered word := by
  obtain ⟨k, states, knows⟩ := built.knows
  obtain ⟨state, stack⟩ : c.state ∈ a.states ∧
      ∀ x ∈ c.stack.toList, x ∈ a.stackSymbols registered := by
    apply h.confined (states ▸ knows.initialState)
    · intro x named
      rw [Automaton.stackSymbols, List.mem_toFinset, List.mem_append]
      exact Or.inl (Option.mem_toList.mpr named)
    · intro t member
      have member := built.mem_registered.mpr member
      refine ⟨states ▸ (knows.transitions t member).destination, ?_⟩
      intro x pushed
      rw [Automaton.stackSymbols, List.mem_toFinset, List.mem_append, List.mem_flatMap]
      exact Or.inr ⟨t, member, List.mem_append_right _ pushed⟩
  have cursor := h.cursor_le
  have height : c.stack.toList.length ≤ 1 + word.length * longestPush registered :=
    (h.height_le built grows).trans
      (Nat.add_le_add_left (Nat.mul_le_mul_right _ cursor) 1)
  simp only [Automaton.situations, Configuration.situation, Finset.mem_product, List.mem_toFinset,
    Finset.mem_range, mem_wordsUpTo]
  exact ⟨state, Nat.lt_succ_of_le cursor, height, stack⟩

/-- A path without detours has no more configurations than there are. -/
theorem Computation.length_le_card (built : a.Built registered) (grows : GrowsByReading registered)
    {steps : List Step} {c : Configuration} (h : Computation a word steps c)
    (distinct : (steps.map Step.configuration).Nodup) :
    steps.length ≤ (a.situations registered word).card := by
  have apart : ((steps.map Step.configuration).map Configuration.situation).Nodup :=
    distinct.map Configuration.situation_injective
  have among : ((steps.map Step.configuration).map Configuration.situation).toFinset ⊆
      a.situations registered word := by
    intro situation member
    obtain ⟨c', passed, rfl⟩ := List.mem_map.mp (List.mem_toFinset.mp member)
    obtain ⟨before, computed, -⟩ := h.upTo passed
    exact computed.situation_mem built grows
  calc steps.length
      = ((steps.map Step.configuration).map Configuration.situation).length := by simp
    _ = ((steps.map Step.configuration).map Configuration.situation).toFinset.card :=
      (List.toFinset_card_of_nodup apart).symm
    _ ≤ (a.situations registered word).card := Finset.card_le_card among

theorem Automaton.Built.not_cut (built : a.Built registered) (grows : GrowsByReading registered)
    {maxDepth : Nat} (deep : (a.situations registered word).card ≤ maxDepth) :
    ¬ Cut a word (maxDepth - 1 + 1) (a.paths word maxDepth) := by
  rw [built.cut_iff]
  rintro ⟨steps, c, computed, distinct, length⟩
  have := computed.length_le_card built grows distinct
  omega

/-- Where the stack grows only with what is read, paths may be limited to the number of
configurations that there are: the limit is then never met, so that only the limit on steps can put
a run out of budget; and there is a number of steps with which every such run decides the
language. -/
theorem run_decides_by_counting (built : a.Built registered) (grows : GrowsByReading registered)
    (word : Word) :
    let count := (a.situations registered word).card
    (∀ (budget : Budget) (clock : Clock), count ≤ budget.maxDepth →
      (search a word budget clock).2.wasCut = false ∧
      (budget.timeout = none → (a.run word budget clock).verdict = .rejected .outOfBudget →
        Abandons a word budget clock)) ∧
    ∃ enough, ∀ (budget : Budget) (clock : Clock), count ≤ budget.maxDepth →
      enough ≤ budget.maxSteps → budget.timeout = none →
        (a.run word budget clock).verdict ≠ .rejected .outOfBudget ∧
        ((∃ criterion, (a.run word budget clock).verdict = .accepted criterion) ↔
          word ∈ a.language) := by
  intro count
  refine ⟨?_, (a.paths word count).length, ?_⟩
  · intro budget clock deep
    have uncut : ¬ Cut a word _ _ := built.not_cut grows deep
    refine ⟨?_, ?_⟩
    · rw [search_eq_sweep, Bool.eq_false_iff]
      intro wasCut
      exact (sweep_wasCut wasCut).elim nofun uncut
    · intro untimed spent
      rcases run_steps a word clock untimed with ⟨stopped, -⟩ | ⟨-, cheap⟩
      · exact stopped
      · exact absurd spent ((run_ending untimed).conclusive built uncut cheap).1
  · intro budget clock deep enough untimed
    have uncut : ¬ Cut a word _ _ := built.not_cut grows deep
    -- The limit on the length of paths has no say in how many there are.
    have paths : a.paths word budget.maxDepth = a.paths word count :=
      Automaton.paths_of_le deep (built.not_cut grows (Nat.le_refl count))
    have ending : Ending a word budget (a.run word budget clock) := run_ending untimed
    refine ending.conclusive built uncut (ending.steps_le ?_)
    rwa [paths]

/-! ### A definition that rewrites its stack -/

/-- Before it reads `a`, it may turn its only stack symbol into the other one and back. -/
def Definition.flipping : Definition where
  name := "Flipping"
  states := ["p", "q"]
  inputAlphabet := ['a']
  stackAlphabet := ['X', 'Y']
  initialState := "p"
  finalStates := ["q"]
  acceptance := .finalState
  bottom := some 'X'
  rules := [⟨"p", none, some 'X', "p", ['Y']⟩, ⟨"p", none, some 'Y', "p", ['X']⟩,
    ⟨"p", some 'a', some 'Y', "q", ['X', 'X']⟩]

def Automaton.flipping : Automaton where
  name := "Flipping"
  states := ["p", "q"]
  inputAlphabet := ['a']
  initialState := "p"
  finalStates := ["q"]
  acceptance := .finalState
  bottom := some 'X'
  table := ⟨[(⟨"p", none, some 'X'⟩, [⟨"p", ['Y']⟩]), (⟨"p", none, some 'Y'⟩, [⟨"p", ['X']⟩]),
    (⟨"p", some 'a', some 'Y'⟩, [⟨"q", ['X', 'X']⟩])]⟩

theorem Automaton.flipping_built :
    flipping.Built (Definition.flipping.rules.map Rule.transition) := ofDefinition_built rfl

/-- With `a` there are two states, two positions and fifteen stacks of up to three symbols. Where
paths may be that long, every run with enough steps accepts `a` and rejects the empty word. -/
theorem run_decides_by_counting_flipping :
    ∃ enough, ∀ (budget : Budget) (clock : Clock), 60 ≤ budget.maxDepth →
      enough ≤ budget.maxSteps → budget.timeout = none →
        (∃ criterion, (Automaton.flipping.run ['a'] budget clock).verdict = .accepted criterion) ∧
        ¬ ∃ criterion, (Automaton.flipping.run [] budget clock).verdict = .accepted criterion := by
  have built := Automaton.flipping_built
  generalize rules : Definition.flipping.rules.map Rule.transition = registered at built
  have grows : GrowsByReading registered := by rw [← rules]; decide
  have count : (Automaton.flipping.situations registered ['a']).card = 60 := by
    rw [← rules]; decide +kernel
  have count' : (Automaton.flipping.situations registered []).card ≤ 60 := by
    rw [← rules]; decide +kernel
  obtain ⟨-, enough, decides⟩ := run_decides_by_counting built grows ['a']
  obtain ⟨-, enough', decides'⟩ := run_decides_by_counting built grows []
  -- One run of each word, with steps to spare, shows whether it is in the language.
  have settled (word : Word) :
      Ending .flipping word ⟨60, 60, none⟩ (Automaton.flipping.run word ⟨60, 60, none⟩ .still) :=
    run_ending rfl
  have rejected : (Automaton.flipping.run [] ⟨60, 60, none⟩ .still).verdict =
      .rejected .notFinal := by decide +kernel
  have member : ['a'] ∈ Automaton.flipping.language :=
    ((settled _).conclusive built (built.not_cut grows count.le) (by decide +kernel)).2.mp
      ⟨.finalState, by decide +kernel⟩
  have apart : [] ∉ Automaton.flipping.language := by
    rw [← ((settled _).conclusive built (built.not_cut grows count') (by decide +kernel)).2,
      rejected]
    exact nofun
  refine ⟨max enough enough', ?_⟩
  intro budget clock deep steps untimed
  rw [(decides budget clock (count.trans_le deep) (by omega) untimed).2,
    (decides' budget clock (count'.trans deep) (by omega) untimed).2]
  exact ⟨member, apart⟩

end Pushdown
