import Pushdown.Transition

/-!
# Transition tables

A table keeps, for each key, the targets registered under it in order of registration, and the keys
in the order in which they came first. `transitions` is the view of a table as one list.
-/

namespace Pushdown

structure Table where
  groups : List (Transition.Key × List Transition.Target)
  deriving DecidableEq, Repr

namespace Table

def empty : Table := ⟨[]⟩

/-- Adds a target to the group of its key, which becomes the last group if it is new. -/
def insertInto (key : Transition.Key) (target : Transition.Target) :
    List (Transition.Key × List Transition.Target) → List (Transition.Key × List Transition.Target)
  | [] => [(key, [target])]
  | (other, targets) :: rest =>
    if other = key then (other, targets ++ [target]) :: rest
    else (other, targets) :: insertInto key target rest

def insert (table : Table) (transition : Transition) : Table :=
  ⟨insertInto transition.key transition.target table.groups⟩

/-- The targets registered under exactly this key, in order of registration. -/
def get (table : Table) (key : Transition.Key) : List Transition.Target :=
  (table.groups.lookup key).getD []

def withKey (table : Table) (key : Transition.Key) : List Transition :=
  (table.get key).map (⟨key, ·⟩)

/-- The transitions that leave `state` on exactly `reads`, in the order in which they are tried:
those that pop `top`, then those that pop nothing. -/
def candidates (table : Table) (state : State) (reads top : Option Symbol) : List Transition :=
  (match top with
    | some _ => table.withKey ⟨state, reads, top⟩
    | none => []) ++
  table.withKey ⟨state, reads, none⟩

/-- The transitions that leave `state` when `next` is the next input symbol, in the order in which
they are tried: those that read it, then those that read nothing. -/
def lookup (table : Table) (state : State) (next top : Option Symbol) : List Transition :=
  (match next with
    | some _ => table.candidates state next top
    | none => []) ++
  table.candidates state none top

/-- All transitions: group by group in the order of the keys. -/
def transitions (table : Table) : List Transition :=
  table.groups.flatMap fun (key, targets) => targets.map (⟨key, ·⟩)

def size (table : Table) : Nat :=
  table.groups.foldr (fun (_, targets) total => targets.length + total) 0

def isEmpty (table : Table) : Bool := table.groups.isEmpty

theorem lookup_insertInto (key other : Transition.Key) (target : Transition.Target)
    (groups : List (Transition.Key × List Transition.Target)) :
    (insertInto key target groups).lookup other =
      if other = key then some ((groups.lookup key).getD [] ++ [target])
      else groups.lookup other := by
  have differ {a b : Transition.Key} (h : a ≠ b) : (a == b) = false := beq_eq_false_iff_ne.mpr h
  induction groups with
  | nil => by_cases h : other = key <;> simp [insertInto, List.lookup_cons, h, differ]
  | cons group rest ih =>
    obtain ⟨first, targets⟩ := group
    by_cases here : first = key
    · subst here
      by_cases h : other = first <;> simp [insertInto, List.lookup_cons, h, differ]
    · by_cases h : other = first
      · subst h
        simp [insertInto, here]
      · simp [insertInto, here, List.lookup_cons, differ h, ih, differ (Ne.symm here)]

@[simp] theorem get_empty (key : Transition.Key) : empty.get key = [] := rfl

/-- A transition is the last one under its key, and leaves the other keys as they were. -/
@[simp] theorem get_insert (table : Table) (transition : Transition) (key : Transition.Key) :
    (table.insert transition).get key =
      if key = transition.key then table.get key ++ [transition.target] else table.get key := by
  simp only [get, insert, lookup_insertInto]
  by_cases h : key = transition.key <;> simp [h]

/-- Whatever is registered is listed, next to what was. -/
@[simp] theorem mem_transitions_insert (table : Table) (transition t : Transition) :
    t ∈ (table.insert transition).transitions ↔ t ∈ table.transitions ∨ t = transition := by
  obtain ⟨groups⟩ := table
  obtain ⟨key, target⟩ := transition
  show t ∈ (insertInto key target groups).flatMap _ ↔ t ∈ groups.flatMap _ ∨ _
  induction groups with
  | nil => simp [insertInto]
  | cons group rest ih =>
    obtain ⟨first, targets⟩ := group
    by_cases here : first = key
    · subst here
      simp only [insertInto, if_true, List.flatMap_cons, List.map_append, List.mem_append,
        List.map_cons, List.map_nil, List.mem_singleton]
      exact or_right_comm
    · simp only [insertInto, here, if_false, List.flatMap_cons, List.mem_append, ih, or_assoc]

theorem foldr_insertInto (key : Transition.Key) (target : Transition.Target)
    (groups : List (Transition.Key × List Transition.Target)) :
    (insertInto key target groups).foldr (fun (_, targets) total => targets.length + total) 0 =
      groups.foldr (fun (_, targets) total => targets.length + total) 0 + 1 := by
  induction groups with
  | nil => rfl
  | cons group rest ih =>
    obtain ⟨first, targets⟩ := group
    by_cases here : first = key
    · simp [insertInto, here]; omega
    · simp [insertInto, here, ih]; omega

@[simp] theorem size_insert (table : Table) (transition : Transition) :
    (table.insert transition).size = table.size + 1 :=
  foldr_insertInto transition.key transition.target table.groups

end Table

end Pushdown
