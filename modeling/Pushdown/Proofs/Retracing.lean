import Pushdown.Proofs.Computations

/-!
# Retracing computations

The transitions that the steps of a computation carry lead through its configurations again, and
what they read is what its last configuration has read of the word.
-/

namespace Pushdown

/-- The configurations that transitions lead through one after another, starting in a given one, if
each of them can be applied where the one before it led. -/
def replay (c : Configuration) : List Transition → Option (List Configuration)
  | [] => some [c]
  | t :: ts => (t.fire? c).bind fun next => (replay next ts).map (c :: ·)

theorem replay_head? {c : Configuration} {ts : List Transition} {cs : List Configuration}
    (replayed : replay c ts = some cs) : cs.head? = some c := by
  cases ts with
  | nil =>
    obtain rfl := Option.some.inj replayed
    rfl
  | cons t ts =>
    obtain ⟨next, -, rest⟩ := Option.bind_eq_some_iff.mp replayed
    obtain ⟨after, -, rfl⟩ := Option.map_eq_some_iff.mp rest
    rfl

theorem replay_concat {c last next : Configuration} {t : Transition} {ts : List Transition}
    {cs : List Configuration} (replayed : replay c ts = some cs) (ends : cs.getLast? = some last)
    (fires : t.fire? last = some next) : replay c (ts ++ [t]) = some (cs ++ [next]) := by
  induction ts generalizing c cs with
  | nil =>
    obtain rfl := Option.some.inj replayed
    obtain rfl : c = last := Option.some.inj ends
    simp [replay, fires]
  | cons first ts ih =>
    obtain ⟨c', fired, rest⟩ := Option.bind_eq_some_iff.mp replayed
    obtain ⟨after, later, rfl⟩ := Option.map_eq_some_iff.mp rest
    obtain ⟨others, rfl⟩ := List.head?_eq_some_iff.mp (replay_head? later)
    rw [List.getLast?_cons_cons] at ends
    simp [replay, fired, ih later ends]

def Step.reads (step : Step) : Option Symbol := step.transition.bind (·.key.reads)

namespace Move

variable {a : Automaton} {word : Word} {c c' : Configuration} {t : Transition}

theorem fires (move : Move a word c t c') : t.fire? c = some c' :=
  Transition.fire?_eq_some.mpr ⟨move.enters, (reads_iff.mp move.reads).2, move.replaces⟩

/-- What is left to read before a move is what the move reads, and what is left after it. -/
theorem remaining_eq (move : Move a word c t c') :
    c.remaining word = t.key.reads.toList ++ c'.remaining word := by
  have reads := move.reads
  generalize t.key.reads = symbol at reads ⊢
  generalize read : c'.cursor = cursor at reads
  unfold Configuration.remaining
  cases reads with
  | nothing => simp [read]
  | next found =>
    obtain ⟨inside, rfl⟩ := List.getElem?_eq_some_iff.mp found
    rw [read, List.drop_eq_getElem_cons inside]
    rfl

end Move

namespace Computation

variable {a : Automaton} {word : Word} {steps : List Step} {c : Configuration}

theorem head?_eq (h : Computation a word steps c) :
    steps.head? = some ⟨a.initialConfiguration, none⟩ := by
  induction h with
  | start => rfl
  | move _ _ ih => rw [List.head?_append, ih]; rfl

theorem getLast?_eq (h : Computation a word steps c) :
    steps.getLast?.map Step.configuration = some c := by
  cases h with
  | start => rfl
  | move => simp

theorem registered (h : Computation a word steps c) :
    ∀ step ∈ steps.tail, ∃ t, step.transition = some t ∧ t.target ∈ a.table.get t.key := by
  induction h with
  | start => simp
  | @move steps c c' t h move ih =>
    intro step member
    rw [List.tail_append_of_ne_nil h.ne_nil, List.mem_append] at member
    rcases member with earlier | last
    · exact ih step earlier
    · obtain rfl := List.mem_singleton.mp last
      exact ⟨t, rfl, move.registered⟩

theorem replay_eq (h : Computation a word steps c) :
    replay a.initialConfiguration (steps.filterMap Step.transition) =
      some (steps.map Step.configuration) := by
  induction h with
  | start => rfl
  | @move steps c c' t h move ih =>
    have longer := replay_concat ih (List.getLast?_map.trans h.getLast?_eq) move.fires
    simpa using longer

theorem spells (h : Computation a word steps c) :
    steps.filterMap Step.reads ++ c.remaining word = word := by
  induction h with
  | start => rfl
  | @move steps c c' t h move ih =>
    rw [move.remaining_eq] at ih
    have read : [(⟨c', some t⟩ : Step)].filterMap Step.reads = t.key.reads.toList := by
      cases reads : t.key.reads <;> simp [Step.reads, reads]
    rw [List.filterMap_append, read, List.append_assoc]
    exact ih

/-- A computation is one up to each of its steps. -/
theorem initial (h : Computation a word steps c) {before : List Step} {step : Step}
    (initial : before ++ [step] <+: steps) :
    Computation a word (before ++ [step]) step.configuration := by
  induction h with
  | start =>
    have short : before.length = 0 := by simpa using initial.length_le
    obtain rfl := List.eq_nil_of_length_eq_zero short
    obtain ⟨rfl, -⟩ := List.cons_prefix_cons.mp initial
    exact .start
  | @move steps c c' t h move ih =>
    rcases List.prefix_concat_iff.mp initial with whole | shorter
    · obtain ⟨rfl, same⟩ := List.append_inj' whole rfl
      obtain rfl := List.singleton_inj.mp same
      exact h.move move
    · exact ih shorter

end Computation

end Pushdown
