/-!
# Outcomes of checks

What it takes for checks that are made one after another to pass, and which of them is heard of if
they do not.
-/

namespace Pushdown

section Except

variable {ε ε' α β : Type}

theorem bind_eq_ok {x : Except ε α} {f : α → Except ε β} {b : β} :
    (x >>= f) = .ok b ↔ ∃ a, x = .ok a ∧ f a = .ok b := by
  cases x <;> simp [bind, Except.bind]

theorem bind_eq_error {x : Except ε α} {f : α → Except ε β} {e : ε} :
    (x >>= f) = .error e ↔ x = .error e ∨ ∃ a, x = .ok a ∧ f a = .error e := by
  cases x <;> simp [bind, Except.bind]

theorem check_then_eq_ok {check : Except ε Unit} {next : Unit → Except ε α} {a : α} :
    (check >>= next) = .ok a ↔ check = .ok () ∧ next () = .ok a := by
  cases check <;> simp [bind, Except.bind]

theorem check_then_eq_error {check : Except ε Unit} {next : Unit → Except ε α} {e : ε} :
    (check >>= next) = .error e ↔ check = .error e ∨ check = .ok () ∧ next () = .error e := by
  cases check <;> simp [bind, Except.bind]

theorem mapError_eq_ok {f : ε → ε'} {x : Except ε α} {a : α} :
    x.mapError f = .ok a ↔ x = .ok a := by
  cases x with
  | ok b =>
    show Except.ok b = .ok a ↔ _
    simp
  | error cause => exact ⟨nofun, nofun⟩

theorem mapError_eq_error {f : ε → ε'} {x : Except ε α} {e : ε'} :
    x.mapError f = .error e ↔ ∃ cause, x = .error cause ∧ f cause = e := by
  cases x with
  | ok a => exact ⟨nofun, nofun⟩
  | error cause =>
    show Except.error (f cause) = .error e ↔ _
    simp

theorem mapError_bind (x : Except ε α) (f : α → Except ε β) (g : ε → ε') :
    (x >>= f).mapError g = x.mapError g >>= fun a => (f a).mapError g := by
  cases x <;> rfl

theorem exists_of_isOk (outcome : Except ε α) (accepted : outcome.isOk = true) :
    ∃ a, outcome = .ok a := by
  cases outcome with
  | ok a => exact ⟨a, rfl⟩
  | error e => cases accepted

/-! ### One check on many things -/

variable {check : α → Except ε Unit}

theorem forM_option_eq_ok {found : Option α} :
    found.forM check = .ok () ↔ ∀ a ∈ found, check a = .ok () := by
  cases found <;> simp [pure, Except.pure]

theorem forM_list_cons (check : α → Except ε Unit) (x : α) (xs : List α) :
    (x :: xs).forM check = check x >>= fun _ => xs.forM check := rfl

theorem forM_list_eq_ok {xs : List α} :
    xs.forM check = .ok () ↔ ∀ a ∈ xs, check a = .ok () := by
  induction xs with
  | nil => simp [pure, Except.pure]
  | cons x xs ih => rw [forM_list_cons, check_then_eq_ok, ih, List.forall_mem_cons]

theorem forM_toList (found : Option α) (check : α → Except ε Unit) :
    found.toList.forM check = found.forM check := by
  cases found with
  | none => rfl
  | some a => exact bind_pure (check a)

end Except

end Pushdown
