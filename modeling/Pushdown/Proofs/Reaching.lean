import Pushdown.Proofs.Reasons

/-!
# Configurations that are reached

`Moves` and `Reaches` leave out by which transitions a configuration leads to another. What holds of
the initial configuration and is kept by every move holds of all that is reached; a word is in the
language if a configuration is reached that accepts it; and a run that is not out of budget shows a
computation to the configuration that its verdict is about.
-/

namespace Pushdown

open Search

variable {a : Automaton} {word : Word} {registered : List Transition} {budget : Budget}
  {clock : Clock} {c c' : Configuration}

@[simp] theorem reads_none {i j : Nat} : Reads word i none j ↔ j = i := by
  simp [reads_iff]

@[simp] theorem reads_some {i j : Nat} {x : Symbol} :
    Reads word i (some x) j ↔ word[i]? = some x ∧ j = i + 1 := by
  simp [reads_iff, eq_comm]

theorem take_next {i : Nat} {x : Symbol} (next : word[i]? = some x) :
    word.take (i + 1) = word.take i ++ [x] := by
  rw [List.take_add_one, next]
  rfl

theorem pops_iff {symbols below : List Symbol} {pops : Option Symbol} :
    Pops symbols pops below ↔ symbols = pops.toList ++ below := by
  constructor
  · rintro (_ | first)
    · rfl
    · exact first
  · rintro rfl
    cases pops with
    | none => exact .nothing
    | some x => exact .top rfl

def Automaton.Moves (a : Automaton) (word : Word) (c c' : Configuration) : Prop :=
  ∃ t, Move a word c t c'

/-- A rule puts in place of the symbol that it pops the symbols that it pushes. -/
def Rule.Applies (word : Word) (rule : Rule) (c c' : Configuration) : Prop :=
  ∃ (i j : Nat) (below : Stack), Reads word i rule.reads j ∧
    c = ⟨rule.origin, i, below.push rule.pops.toList⟩ ∧
    c' = ⟨rule.destination, j, below.push rule.pushes⟩

theorem move_iff_applies {rule : Rule} (registered : rule.target ∈ a.table.get rule.key) :
    Move a word c rule.transition c' ↔ rule.Applies word c c' := by
  obtain ⟨state, i, stack⟩ := c
  obtain ⟨state', j, stack'⟩ := c'
  have pops : rule.pops.toList.reverse = rule.pops.toList := by cases rule.pops <;> rfl
  constructor
  · intro move
    obtain ⟨below, popped, symbols⟩ := move.replaces
    simp only [Rule.transition, Rule.key, Rule.target, pops_iff] at popped symbols
    refine ⟨i, j, .ofWord below.reverse, move.reads, ?_, ?_⟩
    · rw [Configuration.mk.injEq]
      refine ⟨move.leaves.symm, rfl, Stack.ext ?_⟩
      simpa [pops] using popped
    · rw [Configuration.mk.injEq]
      exact ⟨move.enters, rfl, Stack.ext (by simpa using symbols)⟩
  · rintro ⟨i', j', below, reads, same, same'⟩
    obtain ⟨rfl, rfl, rfl⟩ := Configuration.mk.inj same
    obtain ⟨rfl, rfl, rfl⟩ := Configuration.mk.inj same'
    refine ⟨registered, rfl, reads, rfl, below.toList, ?_, ?_⟩
    · simp [Rule.transition, Rule.key, pops_iff, pops]
    · simp [Rule.transition, Rule.target]

/-- The moves of an automaton are those of the rules that it has been built from. -/
theorem Automaton.Built.moves_iff {rules : List Rule}
    (built : a.Built (rules.map Rule.transition)) :
    a.Moves word c c' ↔ ∃ rule ∈ rules, rule.Applies word c c' := by
  constructor
  · rintro ⟨t, move⟩
    obtain ⟨rule, member, rfl⟩ := List.mem_map.mp (built.mem_registered.mpr move.registered)
    exact ⟨rule, member, (move_iff_applies move.registered).mp move⟩
  · rintro ⟨rule, member, applies⟩
    have registered := built.mem_registered.mp (List.mem_map_of_mem member)
    exact ⟨rule.transition, (move_iff_applies registered).mpr applies⟩

/-- The rule in a given place leads from every configuration that it fits to another. -/
theorem Automaton.Built.moves_by {rules : List Rule} (built : a.Built (rules.map Rule.transition))
    (n : Nat) {rule : Rule} (listed : rules[n]? = some rule) (below : Stack) {i j : Nat}
    (reads : Reads word i rule.reads j) :
    a.Moves word ⟨rule.origin, i, below.push rule.pops.toList⟩
      ⟨rule.destination, j, below.push rule.pushes⟩ :=
  built.moves_iff.mpr ⟨rule, List.mem_of_getElem? listed, i, j, below, reads, rfl, rfl⟩

def Automaton.Reaches (a : Automaton) (word : Word) (c : Configuration) : Prop :=
  ∃ steps, Computation a word steps c

namespace Automaton.Reaches

theorem start : a.Reaches word a.initialConfiguration := ⟨_, .start⟩

theorem move (reached : a.Reaches word c) (moves : a.Moves word c c') : a.Reaches word c' := by
  obtain ⟨steps, h⟩ := reached
  obtain ⟨t, move⟩ := moves
  exact ⟨_, h.move move⟩

/-- What holds at the start and is kept by every move holds of all that is reached. -/
theorem keeps {P : Configuration → Prop} (reached : a.Reaches word c)
    (start : P a.initialConfiguration) (move : ∀ c c', P c → a.Moves word c c' → P c') : P c := by
  obtain ⟨steps, h⟩ := reached
  induction h with
  | start => exact start
  | move _ moves ih => exact move _ _ ih ⟨_, moves⟩

end Automaton.Reaches

theorem Automaton.mem_language : word ∈ a.language ↔
    ∃ c criterion, a.Reaches word c ∧ Accepting a word c criterion := by
  constructor
  · rintro ⟨steps, c, criterion, h, accepting⟩
    exact ⟨c, criterion, ⟨steps, h⟩, accepting⟩
  · rintro ⟨c, criterion, ⟨steps, h⟩, accepting⟩
    exact ⟨steps, c, criterion, h, accepting⟩

/-! ### What a run shows -/

theorem Automaton.Built.run_accepted (built : a.Built registered) {criterion : Criterion}
    (untimed : budget.timeout = none)
    (accepted : (a.run word budget clock).verdict = .accepted criterion) :
    ∃ c, Computation a word (a.run word budget clock).trace.steps c ∧
      Accepting a word c criterion := by
  have ending : Ending a word budget (a.run word budget clock) := run_ending untimed
  generalize a.run word budget clock = run at ending accepted
  cases ending with
  | @accepted before after path criterion' split rejected found cheap =>
    obtain rfl := Verdict.accepted.inj accepted
    have member : path ∈ a.paths word budget.maxDepth := by simp [split]
    obtain ⟨⟨c, h⟩, -⟩ := built.mem_paths.mp member
    exact ⟨c, h, accepted?_eq_some h found⟩
  | exhausted | abandoned => cases accepted

theorem Automaton.Built.run_rejected (built : a.Built registered) {reason : RejectReason}
    (rejected : (a.run word budget clock).verdict = .rejected reason)
    (conclusive : reason ≠ .outOfBudget) :
    ∃ c, Computation a word (a.run word budget clock).trace.steps c ∧
      reason.Describes a (a.run word budget clock).trace c ∧
      (a.run word budget clock).trace.word = word := by
  obtain ⟨step, path, member, stuck, unaccepted, rfl, shown⟩ := run_rejected_at rejected conclusive
  obtain ⟨⟨c, h⟩, -⟩ := built.mem_paths.mp member
  obtain rfl := h.configuration_eq
  rw [shown]
  refine ⟨_, h, describes_diagnose built h unaccepted ?_, rfl⟩
  intro t c' move
  rw [List.map_reverse, List.mem_reverse]
  exact built.back_of_fresh_eq_nil stuck move

end Pushdown
