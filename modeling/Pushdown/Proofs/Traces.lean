import Pushdown.Proofs.Confinement
import Pushdown.Proofs.FrozenDrafts
import Pushdown.Proofs.Opened
import Pushdown.Proofs.Retracing
import Pushdown.Proofs.Verdicts

/-!
# Traces

Whatever a run ends with, its trace can be retraced: it is empty, or a computation without detours
that is not longer than a path may be. And whatever configuration a search enters, it is made of
names that the definition declares and of a part of the word that is in the input alphabet.
-/

namespace Pushdown

open Search

variable {a : Automaton} {word : Word} {budget : Budget} {clock : Clock}

/-- A trace starts where its automaton starts, and the transitions that its other steps carry
account for all its configurations and for all that they have read of the word. -/
structure Trace.Genuine (a : Automaton) (trace : Trace) : Prop where
  starts : trace.steps.head? = some ⟨a.initialConfiguration, none⟩
  registered : ∀ step ∈ trace.steps.tail,
    ∃ t, step.transition = some t ∧ t.target ∈ a.table.get t.key
  replays : replay a.initialConfiguration trace.transitions =
    some (trace.steps.map Step.configuration)
  spells : ∀ (i : Nat) (inside : i < trace.steps.length),
    (trace.steps.take (i + 1)).filterMap Step.reads ++
      trace.steps[i].configuration.remaining trace.word = trace.word

theorem Computation.genuine {steps : List Step} {c : Configuration}
    (h : Computation a word steps c) : Trace.Genuine a ⟨word, steps⟩ where
  starts := h.head?_eq
  registered := h.registered
  replays := h.replay_eq
  spells i inside := by
    have upTo : steps.take i ++ [steps[i]] = steps.take (i + 1) := List.take_append_getElem inside
    have computed := h.initial (upTo ▸ List.take_prefix (i + 1) steps)
    rw [upTo] at computed
    exact computed.spells

variable (a word budget clock) in
def Search.Enters (c : Configuration) : Prop :=
  ∃ step path, Opened a word budget clock (step :: path) ∧ step.configuration = c

/-- A configuration is made of names that a definition declares, and has not read more than the
word. -/
structure Configuration.Within (d : Definition) (word : Word) (c : Configuration) : Prop where
  state : c.state ∈ d.states
  cursor : c.cursor ≤ word.length
  stack : ∀ x ∈ c.stack.toList, x ∈ d.stackAlphabet

theorem Search.Opened.mem_paths {path : Path} (opened : Opened a word budget clock path) :
    path ∈ a.paths word budget.maxDepth := by
  obtain ⟨before, after, known, split, -⟩ := opened_iff.mp opened
  rw [split]
  exact List.mem_append_right _ List.mem_cons_self

theorem Search.Enters.computed {registered : List Transition} (built : a.Built registered)
    {c : Configuration} (enters : Enters a word budget clock c) :
    ∃ steps, Computation a word steps c := by
  obtain ⟨step, path, opened, rfl⟩ := enters
  obtain ⟨⟨c, computed⟩, -⟩ := built.mem_paths.mp opened.mem_paths
  obtain rfl := computed.configuration_eq
  exact ⟨_, computed⟩

theorem Search.Opened.enters {path : Path} (opened : Opened a word budget clock path) {step : Step}
    (member : step ∈ path) : Enters a word budget clock step.configuration := by
  obtain ⟨before, after, rfl⟩ := List.append_of_mem member
  have initial : step :: after <:+ before ++ step :: after := List.suffix_append _ _
  have begun := List.suffix_of_suffix_length_le (Opens.suffix opened) initial (by simp)
  exact ⟨step, after, Opens.of_suffix opened initial begun, rfl⟩

theorem Search.Opened.retraced {registered : List Transition} (built : a.Built registered)
    {path : Path} (opened : Opened a word budget clock path) :
    Trace.Genuine a ⟨word, path.reverse⟩ ∧ (path.reverse.map Step.configuration).Nodup ∧
      path.reverse.length ≤ max 1 budget.maxDepth := by
  obtain ⟨⟨c, computed⟩, distinct, short⟩ := built.mem_paths.mp opened.mem_paths
  rw [List.map_reverse, List.nodup_reverse, List.length_reverse]
  exact ⟨computed.genuine, distinct, short⟩

theorem Computation.within {d : Definition} {k : Draft} {registered : List Transition}
    {steps : List Step} {c : Configuration} (h : Computation a word steps c)
    (built : a.Built registered) (knows : a.Knows registered k) (names : k.SameNames d) :
    c.Within d word := by
  obtain ⟨state, stack⟩ : c.state ∈ k.states ∧ ∀ x ∈ c.stack.toList, x ∈ k.stackAlphabet := by
    apply h.confined knows.initialState knows.bottom
    intro t member
    have known := knows.transitions t (built.mem_registered.mpr member)
    exact ⟨known.destination, known.pushes⟩
  exact ⟨(names.states _).mp state, h.cursor_le,
    fun x member => (names.stackAlphabet x).mp (stack x member)⟩

theorem Computation.cursor_le_of_foreign {d : Definition} {k : Draft} {registered : List Transition}
    {steps : List Step} {c : Configuration} (h : Computation a word steps c)
    (built : a.Built registered) (knows : a.Knows registered k) (names : k.SameNames d) {p : Nat}
    {x : Symbol} (there : word[p]? = some x) (foreign : x ∉ d.inputAlphabet) : c.cursor ≤ p := by
  apply h.cursor_le_of_unread
  intro t member
  rw [there]
  refine Or.inr fun reads => foreign ((names.inputAlphabet x).mp ?_)
  exact (knows.transitions t (built.mem_registered.mpr member)).reads x reads

/-- What every run shows and every search keeps to, whatever the budget: the trace is empty or can
be retraced, it meets no configuration twice and is not longer than a path may be; all
configurations that the search enters, those of the trace among them, are made of what the
definition declares; and the search does not get past a symbol outside the input alphabet, nor does
the run accept then. -/
theorem run_trace_genuine {d : Definition} {a : Automaton}
    (accepted : Automaton.ofDefinition d = .ok a) (word : Word) (budget : Budget) (clock : Clock) :
    let run := a.run word budget clock
    run.trace.word = word ∧
    (run.trace.steps = [] ∨ run.trace.Genuine a) ∧
    (run.trace.steps.map Step.configuration).Nodup ∧
    run.trace.steps.length ≤ max 1 budget.maxDepth ∧
    (∀ step ∈ run.trace.steps, Enters a word budget clock step.configuration) ∧
    (∀ c, Enters a word budget clock c → c.Within d word) ∧
    ∀ (p : Nat) (x : Symbol), word[p]? = some x → x ∉ d.inputAlphabet →
      (∀ c, Enters a word budget clock c → c.cursor ≤ p) ∧
      ∀ criterion, run.verdict ≠ .accepted criterion := by
  have built := Automaton.ofDefinition_built accepted
  obtain ⟨k, names, knows⟩ := Automaton.ofDefinition_knows accepted
  obtain ⟨path, trace, opened, accepts⟩ := run_trace a word budget clock
  intro run
  have made : (run.trace.steps = [] ∨ run.trace.Genuine a) ∧
      (run.trace.steps.map Step.configuration).Nodup ∧
      run.trace.steps.length ≤ max 1 budget.maxDepth ∧
      ∀ step ∈ run.trace.steps, Enters a word budget clock step.configuration := by
    rw [trace]
    rcases opened with rfl | opened
    · exact ⟨Or.inl rfl, List.nodup_nil, Nat.zero_le _, nofun⟩
    · obtain ⟨genuine, distinct, short⟩ := opened.retraced built
      exact ⟨Or.inr genuine, distinct, short,
        fun step member => opened.enters (List.mem_reverse.mp member)⟩
  obtain ⟨genuine, distinct, short, entered⟩ := made
  refine ⟨congrArg Trace.word trace, genuine, distinct, short, entered, ?_, ?_⟩
  · intro c entered
    obtain ⟨steps, computed⟩ := entered.computed built
    exact computed.within built knows names
  · intro p x there foreign
    refine ⟨?_, ?_⟩
    · intro c entered
      obtain ⟨steps, computed⟩ := entered.computed built
      exact computed.cursor_le_of_foreign built knows names there foreign
    · intro criterion verdict
      have accepted := accepts criterion verdict
      have opened := opened.resolve_left fun none => by rw [none] at accepted; cases accepted
      obtain ⟨⟨c, computed⟩, -⟩ := built.mem_paths.mp opened.mem_paths
      -- An accepted path has read the whole word, the foreign symbol with it.
      have finished := (accepted?_eq_some computed accepted).finished
      have stopped := computed.cursor_le_of_foreign built knows names there foreign
      obtain ⟨inside, -⟩ := List.getElem?_eq_some_iff.mp there
      omega

/-- `Automaton.roundabout` does not get past the `b` of `ab`, which it does not know; the last path
that it cannot extend is its detour. -/
theorem run_trace_genuine_roundabout :
    Automaton.ofDefinition .roundabout = .ok .roundabout ∧
    let run := Automaton.roundabout.run ['a', 'b'] .standard .still
    run.trace.length = 2 ∧ run.trace.Genuine .roundabout ∧
    Enters .roundabout ['a', 'b'] .standard .still ⟨"r", 0, .ofWord ['X']⟩ ∧
    (∀ c, Enters .roundabout ['a', 'b'] .standard .still c → c.cursor ≤ 1) ∧
    run.verdict = .rejected (.circling 0) := by
  have accepted : Automaton.ofDefinition .roundabout = .ok .roundabout := rfl
  obtain ⟨-, genuine, -, -, entered, -, stops⟩ :=
    run_trace_genuine accepted ['a', 'b'] .standard .still
  have last : (⟨⟨"r", 0, .ofWord ['X']⟩, some ⟨⟨"p", none, none⟩, ⟨"r", ['X']⟩⟩⟩ : Step) ∈
      (Automaton.roundabout.run ['a', 'b'] .standard .still).trace.steps := by decide +kernel
  exact ⟨accepted, by decide +kernel, genuine.resolve_left (List.ne_nil_of_mem last),
    entered _ last, (stops 1 'b' rfl (by decide)).1, by decide +kernel⟩

end Pushdown
