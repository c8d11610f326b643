import Mathlib.Data.List.Induction
import Mathlib.Data.List.Nodup

/-!
# Repetitions in lists

What is left of a list once repetitions are taken out has no element twice, and so has what is left
of a sorted list once neighbours are compared. Where no two entries have the same key, no search
finds a key again, and a pair is looked up by its key.
-/

namespace Pushdown

/-- The elements of a list are numbered upwards. -/
theorem pairwise_zipIdx {α : Type} (list : List α) : list.zipIdx.Pairwise (·.2 < ·.2) := by
  rw [← List.pairwise_map, List.zipIdx_map_snd]
  exact List.pairwise_lt_range' 1

section Sorting

variable {α : Type} {cmp : α → α → Ordering} [Std.TransCmp cmp]

theorem pairwise_mergeSort_isLE (xs : List α) :
    (xs.mergeSort fun x y => (cmp x y).isLE).Pairwise fun x y => (cmp x y).isLE = true := by
  apply List.pairwise_mergeSort
  · intro x y z first second
    exact Std.TransCmp.isLE_trans first second
  · intro x y
    have swap : cmp y x = (cmp x y).swap := Std.OrientedCmp.eq_swap
    rw [swap]
    cases cmp x y <;> rfl

end Sorting

section Repetitions

variable {α : Type} [DecidableEq α] {x y : α} {xs : List α}

theorem eraseReps_loop (x : α) (xs seen : List α) :
    List.eraseRepsBy.loop (· == ·) x xs seen =
      seen.reverse ++ List.eraseRepsBy.loop (· == ·) x xs [] := by
  induction xs generalizing x seen with
  | nil => simp [List.eraseRepsBy.loop]
  | cons y xs ih =>
    simp only [List.eraseRepsBy.loop]
    cases x == y with
    | true => exact ih x seen
    | false => rw [ih y (x :: seen), ih y [x], List.reverse_cons, List.append_assoc]; rfl

theorem eraseReps_cons_cons (x y : α) (xs : List α) :
    (x :: y :: xs).eraseReps =
      if x = y then (y :: xs).eraseReps else x :: (y :: xs).eraseReps := by
  simp only [List.eraseReps, List.eraseRepsBy, List.eraseRepsBy.loop]
  by_cases same : x = y
  · subst same
    simp
  · rw [beq_eq_false_iff_ne.mpr same, if_neg same]
    exact eraseReps_loop y xs [x]

@[simp] theorem mem_eraseReps : x ∈ xs.eraseReps ↔ x ∈ xs := by
  induction xs with
  | nil => rfl
  | cons y xs ih =>
    cases xs with
    | nil => rfl
    | cons z xs =>
      rw [eraseReps_cons_cons, List.mem_cons, ← ih]
      split
      · next same =>
        subst same
        simp [ih]
      · rw [List.mem_cons]

/-- Where equal elements stand side by side, no element is left twice. -/
theorem nodup_eraseReps {le : α → α → Prop} (antisymm : ∀ x y, le x y → le y x → x = y)
    (sorted : xs.Pairwise le) : xs.eraseReps.Nodup := by
  induction xs with
  | nil => exact List.nodup_nil
  | cons y xs ih =>
    obtain ⟨first, later⟩ := List.pairwise_cons.mp sorted
    cases xs with
    | nil => exact List.nodup_singleton y
    | cons z xs =>
      rw [eraseReps_cons_cons]
      split
      · exact ih later
      · next differ =>
        refine List.nodup_cons.mpr ⟨?_, ih later⟩
        rw [mem_eraseReps, List.mem_cons]
        -- What comes back after `z` would have to stand before it as well.
        rintro (same | after)
        · exact differ same
        · exact differ (antisymm y z (first z List.mem_cons_self)
            ((List.pairwise_cons.mp later).1 y after))

theorem nodup_eraseDups (xs : List α) : xs.eraseDups.Nodup := by
  induction xs using List.reverseRecOn with
  | nil => exact List.nodup_nil
  | append_singleton xs x ih =>
    rw [List.eraseDups_append]
    by_cases known : x ∈ xs
    · simpa [List.removeAll, known] using ih
    · have new : x ∉ xs.eraseDups := fun member => known (List.mem_eraseDups.mp member)
      simpa [List.removeAll, known, List.eraseDups_cons] using ih.concat new

end Repetitions

section Keys

variable {α β κ : Type} [DecidableEq κ] {key : α → κ} {answer : α → β}
  {find : List κ → List α → Option β} {seen : List κ} {xs : List α}

/-- From the front of a list, `find` looks for an entry with the key of one before it or with one of
the keys already seen. -/
structure FindsRepeated (key : α → κ) (answer : α → β) (find : List κ → List α → Option β) :
    Prop where
  nil : ∀ seen, find seen [] = none
  cons : ∀ seen x xs, find seen (x :: xs) =
    if key x ∈ seen then some (answer x) else find (key x :: seen) xs

theorem FindsRepeated.eq_none_iff (finds : FindsRepeated key answer find) :
    find seen xs = none ↔ (xs.map key).Nodup ∧ ∀ x ∈ xs, key x ∉ seen := by
  induction xs generalizing seen with
  | nil => simp [finds.nil]
  | cons x xs ih =>
    rw [finds.cons, List.map_cons, List.nodup_cons, List.forall_mem_cons]
    by_cases known : key x ∈ seen
    · simp [known]
    · rw [if_neg known, ih]
      simp only [List.mem_cons, not_or, List.mem_map, not_exists, not_and, known, not_false_eq_true,
        true_and]
      constructor
      · rintro ⟨distinct, fresh⟩
        exact ⟨⟨fun later member => (fresh later member).1, distinct⟩,
          fun later member => (fresh later member).2⟩
      · rintro ⟨⟨new, distinct⟩, fresh⟩
        exact ⟨distinct, fun later member => ⟨new later member, fresh later member⟩⟩

end Keys

theorem lookup_eq_some_iff_mem {α β : Type} [DecidableEq α] {pairs : List (α × β)}
    (distinct : (pairs.map Prod.fst).Nodup) {key : α} {value : β} :
    pairs.lookup key = some value ↔ (key, value) ∈ pairs := by
  induction pairs with
  | nil => simp
  | cons pair pairs ih =>
    obtain ⟨first, other⟩ := pair
    rw [List.map_cons, List.nodup_cons] at distinct
    rw [List.lookup_cons, List.mem_cons, Prod.mk.injEq]
    by_cases here : key = first
    · subst here
      have later : (key, value) ∉ pairs :=
        fun member => distinct.1 (List.mem_map.mpr ⟨_, member, rfl⟩)
      simp [later, eq_comm]
    · simp [here, beq_eq_false_iff_ne.mpr here, ih distinct.2]

end Pushdown
