import Pushdown.Proofs.Enumeration

/-!
# Paths and computations

The paths that a run may open are the computations without detours that are short enough. One that
is too long to be among them leaves a trace: a path that was cut.
-/

namespace Pushdown

open Search

variable {a : Automaton} {word : Word} {registered : List Transition}

namespace Computation

theorem append_singleton_iff {steps : List Step} {next : Step} {c : Configuration} :
    Computation a word (steps ++ [next]) c ↔ c = next.configuration ∧
      (steps = [] ∧ next = ⟨a.initialConfiguration, none⟩ ∨
        ∃ before t, Computation a word steps before ∧ next.transition = some t ∧
          Move a word before t next.configuration) := by
  constructor
  · intro h
    generalize whole : steps ++ [next] = all at h
    cases h with
    | start =>
      have single : steps ++ [next] = [] ++ [⟨a.initialConfiguration, none⟩] := whole
      obtain ⟨rfl, same⟩ := List.append_inj' single rfl
      obtain rfl := List.singleton_inj.mp same
      exact ⟨rfl, Or.inl ⟨rfl, rfl⟩⟩
    | move h move =>
      obtain ⟨rfl, same⟩ := List.append_inj' whole rfl
      obtain rfl := List.singleton_inj.mp same
      exact ⟨rfl, Or.inr ⟨_, _, h, rfl, move⟩⟩
  · rintro ⟨rfl, ⟨rfl, rfl⟩ | ⟨before, t, h, carried, move⟩⟩
    · exact .start
    · obtain ⟨c, transition⟩ := next
      obtain rfl : transition = some t := carried
      exact h.move move

theorem reverse_cons_cons_iff {next step : Step} {path : Path} {c : Configuration} :
    Computation a word (next :: step :: path).reverse c ↔ c = next.configuration ∧
      Computation a word (step :: path).reverse step.configuration ∧
        ∃ t, next.transition = some t ∧ Move a word step.configuration t next.configuration := by
  have ends : ∀ {before}, Computation a word (step :: path).reverse before →
      before = step.configuration := by
    intro before h
    rw [List.reverse_cons, append_singleton_iff] at h
    exact h.1
  rw [List.reverse_cons (a := next), append_singleton_iff]
  constructor
  · rintro ⟨rfl, ⟨none, -⟩ | ⟨before, t, h, carried, move⟩⟩
    · simp at none
    · obtain rfl := ends h
      exact ⟨rfl, h, t, carried, move⟩
  · rintro ⟨rfl, h, t, carried, move⟩
    exact ⟨rfl, Or.inr ⟨_, t, h, carried, move⟩⟩

theorem configuration_eq {step : Step} {path : Path} {c : Configuration}
    (h : Computation a word (step :: path).reverse c) : c = step.configuration := by
  rw [List.reverse_cons, append_singleton_iff] at h
  exact h.1

end Computation

theorem onPath_eq_false {path : Path} {c : Configuration} :
    onPath path c = false ↔ c ∉ path.map Step.configuration := by
  simp [onPath]

namespace Automaton.Built

theorem mem_fresh (built : a.Built registered) {step next : Step} {path : Path} :
    next ∈ fresh (a.moves word) step path ↔
      (∃ t, next.transition = some t ∧ Move a word step.configuration t next.configuration) ∧
        next.configuration ∉ (step :: path).map Step.configuration := by
  rw [fresh, List.mem_filter, built.mem_moves, Bool.not_eq_true', onPath_eq_false]

theorem computation_of_mem_paths (built : a.Built registered) {maxDepth : Nat} {path : Path}
    (member : path ∈ a.paths word maxDepth) :
    (∃ c, Computation a word path.reverse c) ∧ (path.map Step.configuration).Nodup := by
  refine preorder_forall (P := fun path => (∃ c, Computation a word path.reverse c) ∧
    (path.map Step.configuration).Nodup) ?_ ⟨⟨_, .start⟩, by simp⟩ path member
  rintro step path next ⟨⟨c, h⟩, distinct⟩ among
  obtain ⟨moves, new⟩ := built.mem_fresh.mp among
  obtain rfl := h.configuration_eq
  have longer := Computation.reverse_cons_cons_iff.mpr ⟨rfl, h, moves⟩
  exact ⟨⟨_, longer⟩, List.nodup_cons.mpr ⟨new, distinct⟩⟩

/-- Along a computation without detours, its initial parts are listed until one of them is cut. -/
theorem mem_paths_or_cut (built : a.Built registered) (maxDepth : Nat) {path : Path}
    {c : Configuration} (h : Computation a word path.reverse c)
    (distinct : (path.map Step.configuration).Nodup) :
    path ∈ a.paths word maxDepth ∨
      max 1 maxDepth < path.length ∧ Cut a word (maxDepth - 1 + 1) (a.paths word maxDepth) := by
  induction path generalizing c with
  | nil => exact absurd rfl h.ne_nil
  | cons next path ih =>
    cases path with
    | nil =>
      have alone : Computation a word ([] ++ [next]) c := h
      obtain ⟨-, ⟨-, rfl⟩ | ⟨before, -, none, -⟩⟩ := Computation.append_singleton_iff.mp alone
      · exact Or.inl mem_preorder_self
      · exact absurd rfl none.ne_nil
    | cons step path =>
      obtain ⟨-, earlier, moves⟩ := Computation.reverse_cons_cons_iff.mp h
      obtain ⟨new, distinct⟩ := List.nodup_cons.mp distinct
      have among := built.mem_fresh.mpr ⟨moves, new⟩
      -- Where the path without its last step is listed, that step is fresh: it is listed too, or
      -- the path was cut in front of it.
      rcases ih earlier distinct with member | ⟨long, cut⟩
      · by_cases short : path.length < maxDepth - 1
        · exact Or.inl (grow_mem_preorder member short among)
        · refine Or.inr ⟨?_, step, path, member, List.ne_nil_of_mem among, by omega⟩
          simp only [List.length_cons]
          omega
      · exact Or.inr ⟨Nat.lt_succ_of_lt long, cut⟩

/-- The paths that a run may open: computations that meet no configuration twice and are not too
long. -/
theorem mem_paths (built : a.Built registered) {maxDepth : Nat} {path : Path} :
    path ∈ a.paths word maxDepth ↔ (∃ c, Computation a word path.reverse c) ∧
      (path.map Step.configuration).Nodup ∧ path.length ≤ max 1 maxDepth := by
  constructor
  · intro member
    obtain ⟨computed, distinct⟩ := built.computation_of_mem_paths member
    have short : path.length ≤ maxDepth - 1 + 0 + 1 := length_le_of_mem_preorder member
    exact ⟨computed, distinct, by omega⟩
  · rintro ⟨⟨c, h⟩, distinct, short⟩
    refine (built.mem_paths_or_cut maxDepth h distinct).resolve_right ?_
    rintro ⟨long, -⟩
    omega

end Automaton.Built

end Pushdown
