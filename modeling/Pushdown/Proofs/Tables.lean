import Mathlib.Data.List.Nodup
import Pushdown.Proofs.Histories
import Pushdown.Proofs.Listings
import Pushdown.Table.Index

/-!
# Transitions grouped by key

Transitions that are registered one after another are kept grouped by key: the groups in the order
in which their keys came first, and within a group in the order of registration. An index to which
the same transitions were registered stays in step with the table, so the two give the same answers.
-/

namespace Pushdown

/-- Transitions grouped by key. A key has its place where it occurs first. -/
def grouped (registered : List Transition) : List Transition :=
  (registered.map Transition.key).eraseDups.flatMap fun key => registered.filter (·.key = key)

section Grouped

variable {keys : List Transition.Key} {registered : List Transition}

theorem count_flatMap_filter (distinct : keys.Nodup) (registered : List Transition)
    (t : Transition) : (keys.flatMap fun key => registered.filter (·.key = key)).count t =
      if t.key ∈ keys then registered.count t else 0 := by
  induction keys with
  | nil => rfl
  | cons key keys ih =>
    obtain ⟨new, distinct⟩ := List.nodup_cons.mp distinct
    rw [List.flatMap_cons, List.count_append, ih distinct]
    by_cases here : t.key = key
    · subst here
      have first : (registered.filter (·.key = t.key)).count t = registered.count t :=
        List.count_filter (decide_eq_true rfl)
      simp [first, new]
    · have others : (registered.filter (·.key = key)).count t = 0 := by
        rw [List.count_eq_zero]
        intro member
        exact here (of_decide_eq_true (List.mem_filter.mp member).2)
      simp [others, here]

theorem mem_eraseDups_keys {key : Transition.Key} :
    key ∈ (registered.map Transition.key).eraseDups ↔ ∃ t ∈ registered, t.key = key := by
  rw [List.mem_eraseDups, List.mem_map]

theorem grouped_perm (registered : List Transition) : (grouped registered).Perm registered := by
  rw [List.perm_iff_count]
  intro t
  rw [grouped, count_flatMap_filter (nodup_eraseDups _)]
  split
  · rfl
  · next absent =>
    rw [mem_eraseDups_keys] at absent
    exact (List.count_eq_zero.mpr fun member => absent ⟨t, member, rfl⟩).symm

end Grouped

namespace Table

def keys (table : Table) : List Transition.Key := table.groups.map Prod.fst

theorem keys_insertInto (key : Transition.Key) (target : Transition.Target)
    (groups : List (Transition.Key × List Transition.Target)) :
    (insertInto key target groups).map Prod.fst =
      Draft.insertNew (groups.map Prod.fst) key := by
  induction groups with
  | nil => rfl
  | cons group groups ih =>
    obtain ⟨first, targets⟩ := group
    by_cases here : first = key
    · simp [insertInto, Draft.insertNew, here]
    · rw [insertInto, if_neg here, List.map_cons, ih]
      by_cases known : key ∈ groups.map Prod.fst <;>
        simp only [Draft.insertNew, List.map_cons, List.any_cons, here, decide_false,
          Bool.false_or] <;> split <;> rfl

theorem keys_insert (table : Table) (t : Transition) :
    (table.insert t).keys = Draft.insertNew table.keys t.key :=
  keys_insertInto t.key t.target table.groups

theorem keys_ofTransitions (registered : List Transition) :
    (ofTransitions registered).keys = (registered.map Transition.key).eraseDups := by
  rw [← Draft.foldl_insertNew]
  induction registered using List.reverseRecOn with
  | nil => rfl
  | append_singleton registered t ih =>
    rw [ofTransitions_concat, keys_insert, ih, List.map_append, List.foldl_append]
    rfl

theorem nodup_keys_ofTransitions (registered : List Transition) :
    (ofTransitions registered).keys.Nodup := by
  rw [keys_ofTransitions]
  exact nodup_eraseDups _

theorem lookup_groups {table : Table} (distinct : table.keys.Nodup) {key : Transition.Key}
    {targets : List Transition.Target} :
    table.groups.lookup key = some targets ↔ (key, targets) ∈ table.groups :=
  lookup_eq_some_iff_mem distinct

theorem transitions_eq_flatMap {table : Table} (distinct : table.keys.Nodup) :
    table.transitions = table.keys.flatMap table.withKey := by
  rw [keys, List.flatMap_map, transitions]
  refine List.flatMap_congr fun group member => ?_
  obtain ⟨key, targets⟩ := group
  rw [withKey, get, (lookup_groups distinct).mpr member]
  rfl

theorem transitions_ofTransitions (registered : List Transition) :
    (ofTransitions registered).transitions = grouped registered := by
  rw [transitions_eq_flatMap (nodup_keys_ofTransitions registered), keys_ofTransitions, grouped]
  exact List.flatMap_congr fun key _ => withKey_ofTransitions registered key

theorem size_ofTransitions (registered : List Transition) :
    (ofTransitions registered).size = registered.length := by
  induction registered using List.reverseRecOn with
  | nil => rfl
  | append_singleton registered t ih =>
    rw [ofTransitions_concat, size_insert, ih, List.length_append, List.length_singleton]

theorem eq_nil_of_keys_eq_nil {registered : List Transition} :
    (registered.map Transition.key).eraseDups = [] ↔ registered = [] := by
  cases registered <;> simp [List.eraseDups_cons]

theorem isEmpty_ofTransitions (registered : List Transition) :
    (ofTransitions registered).isEmpty = true ↔ registered = [] := by
  rw [isEmpty, List.isEmpty_iff, ← eq_nil_of_keys_eq_nil, ← keys_ofTransitions, keys,
    List.map_eq_nil_iff]

/-! ### Tables and their indices -/

structure InStep (table : Table) (index : Index) : Prop where
  order : index.order = table.keys
  groups : ∀ key, index.groups[key]? = table.groups.lookup key

theorem lookup_eq_none {table : Table} {key : Transition.Key} :
    table.groups.lookup key = none ↔ key ∉ table.keys := by
  rw [List.lookup_eq_none_iff, keys, List.mem_map]
  simp only [bne_iff_ne, not_exists, not_and]
  exact forall₂_congr fun _ _ => ne_comm

theorem InStep.insert {table : Table} {index : Index} (inStep : InStep table index)
    (t : Transition) : InStep (table.insert t) (index.insert t) := by
  obtain ⟨order, groups⟩ := inStep
  have known := groups t.key
  unfold Index.insert
  cases found : index.groups[t.key]? with
  | some targets =>
    rw [found] at known
    have member : t.key ∈ table.keys := by
      by_contra absent
      rw [lookup_eq_none.mpr absent] at known
      cases known
    refine ⟨?_, ?_⟩
    · simp [order, keys_insert, Draft.insertNew, member]
    · intro key
      simp only [Table.insert, lookup_insertInto, ← known, Std.HashMap.getElem?_insert, groups,
        beq_iff_eq, eq_comm (a := t.key), Option.getD_some]
  | none =>
    rw [found] at known
    have absent := lookup_eq_none.mp known.symm
    refine ⟨?_, ?_⟩
    · simp [order, keys_insert, Draft.insertNew, absent]
    · intro key
      simp only [Table.insert, lookup_insertInto, ← known, Std.HashMap.getElem?_insert, groups,
        beq_iff_eq, eq_comm (a := t.key), Option.getD_none, List.nil_append]

theorem inStep_ofTransitions (registered : List Transition) :
    InStep (ofTransitions registered) (Index.ofTransitions registered) := by
  induction registered using List.reverseRecOn with
  | nil => exact ⟨rfl, fun key => Std.HashMap.getElem?_empty⟩
  | append_singleton registered t ih =>
    rw [ofTransitions_concat, Index.ofTransitions, List.foldl_append]
    exact ih.insert t

section InStep

variable {table : Table} {index : Index}

theorem InStep.get (inStep : InStep table index) (key : Transition.Key) :
    index.get key = table.get key := by
  rw [Index.get, inStep.groups, Table.get]

theorem InStep.transitions (inStep : InStep table index) (distinct : table.keys.Nodup) :
    index.transitions = table.transitions := by
  rw [Index.transitions, inStep.order, transitions_eq_flatMap distinct]
  exact List.flatMap_congr fun key _ => by rw [inStep.get, withKey]

/-- What an index finds under keys one after another. -/
theorem InStep.flatMap_withKey (inStep : InStep table index) (keys : List Transition.Key) :
    ((keys.filterMap fun key => index.groups[key]?.map (key, ·)).flatMap
      fun (key, targets) => targets.map (⟨key, ·⟩)) = keys.flatMap table.withKey := by
  induction keys with
  | nil => rfl
  | cons key keys ih =>
    rw [List.filterMap_cons, List.flatMap_cons, ← ih, withKey, Table.get, ← inStep.groups]
    cases index.groups[key]? <;> rfl

theorem InStep.candidates (inStep : InStep table index) (state : State)
    (reads top : Option Symbol) :
    index.candidates state reads top = table.candidates state reads top := by
  unfold Index.candidates Table.candidates
  rw [inStep.flatMap_withKey]
  cases top <;> simp

theorem InStep.lookup (inStep : InStep table index) (state : State) (next top : Option Symbol) :
    index.lookup state next top = table.lookup state next top := by
  unfold Index.lookup Table.lookup
  cases next <;> simp only [inStep.candidates]

theorem InStep.mem_groups (inStep : InStep table index) {key : Transition.Key} :
    key ∈ index.groups ↔ key ∈ index.order := by
  rw [inStep.order, ← not_iff_not, ← lookup_eq_none, ← inStep.groups,
    Std.HashMap.mem_iff_isSome_getElem?, Bool.not_eq_true, Option.isSome_eq_false_iff,
    Option.isNone_iff_eq_none]

theorem InStep.isEmpty (inStep : InStep table index) : index.isEmpty = table.isEmpty := by
  rw [Bool.eq_iff_iff, Index.isEmpty, Std.HashMap.isEmpty_iff_forall_not_mem, Table.isEmpty,
    List.isEmpty_iff, ← List.map_eq_nil_iff (f := Prod.fst), ← keys, ← inStep.order,
    List.eq_nil_iff_forall_not_mem]
  exact forall_congr' fun key => not_congr inStep.mem_groups

/-- The entries of the hash map, which come in no order, are the groups in their order. -/
theorem InStep.toList_perm (inStep : InStep table index) (distinct : table.keys.Nodup) :
    index.groups.toList.Perm (index.order.map fun key => (key, index.get key)) := by
  have apart : index.groups.toList.Nodup := by
    have keys := index.groups.nodup_keys
    rw [← Std.HashMap.map_fst_toList_eq_keys] at keys
    exact List.Nodup.of_map _ keys
  have apart' : (index.order.map fun key => (key, index.get key)).Nodup := by
    rw [inStep.order]
    exact List.Nodup.map (fun key key' same => (Prod.mk.inj same).1) distinct
  rw [List.perm_ext_iff_of_nodup apart apart']
  rintro ⟨key, targets⟩
  rw [Std.HashMap.mem_toList_iff_getElem?_eq_some, List.mem_map]
  constructor
  · intro found
    refine ⟨key, inStep.mem_groups.mp ?_, by rw [Index.get, found]; rfl⟩
    exact Std.HashMap.mem_iff_isSome_getElem?.mpr (by rw [found]; rfl)
  · rintro ⟨_, member, ⟨⟩⟩
    obtain ⟨targets, found⟩ := Option.isSome_iff_exists.mp
      (Std.HashMap.mem_iff_isSome_getElem?.mp (inStep.mem_groups.mpr member))
    rw [Index.get, found]
    rfl

theorem InStep.size (inStep : InStep table index) (distinct : table.keys.Nodup) :
    index.size = index.transitions.length := by
  have sum (entries : List (Transition.Key × List Transition.Target)) (total : Nat) :
      entries.foldl (fun total entry => total + entry.2.length) total =
        total + (entries.map fun entry => entry.2.length).sum := by
    induction entries generalizing total with
    | nil => rfl
    | cons entry entries ih =>
      rw [List.foldl_cons, ih, List.map_cons, List.sum_cons, Nat.add_assoc]
  -- The fold goes through the hash map in its own order, which a sum does not see.
  have perm := ((inStep.toList_perm distinct).map fun entry => entry.2.length).sum_nat
  rw [Index.size, Std.HashMap.fold_eq_foldl_toList, sum, Nat.zero_add, perm, List.map_map,
    Index.transitions, List.length_flatMap]
  simp [Function.comp_def]

end InStep

/-! ### What tables hold -/

/-- A table holds the transitions that were registered, in this order, and no others. -/
structure Lists (table : Table) (registered : List Transition) : Prop where
  get : ∀ key, table.get key = (registered.filter (·.key = key)).map Transition.target
  transitions : table.transitions = grouped registered
  perm : table.transitions.Perm registered
  size : table.size = registered.length
  length : table.transitions.length = table.size
  isEmpty : table.isEmpty = true ↔ registered = []

/-- The two parts of an index have the same keys, none of them twice and none without a target, and
it answers as a table does. -/
structure Index.Mirrors (index : Index) (table : Table) : Prop where
  nodup : index.order.Nodup
  mem_order : ∀ key, key ∈ index.order ↔ key ∈ index.groups
  targets : ∀ (key : Transition.Key) (targets : List Transition.Target),
    index.groups[key]? = some targets → targets ≠ []
  get : ∀ key, index.get key = table.get key
  lookup : ∀ state next top, index.lookup state next top = table.lookup state next top
  transitions : index.transitions = table.transitions
  size : index.size = table.size
  isEmpty : index.isEmpty = table.isEmpty

theorem lists_ofTransitions (registered : List Transition) :
    (ofTransitions registered).Lists registered where
  get := get_ofTransitions registered
  transitions := transitions_ofTransitions registered
  perm := transitions_ofTransitions registered ▸ grouped_perm registered
  size := size_ofTransitions registered
  length := by
    rw [transitions_ofTransitions, (grouped_perm registered).length_eq, size_ofTransitions]
  isEmpty := isEmpty_ofTransitions registered

theorem mirrors_ofTransitions (registered : List Transition) :
    (Index.ofTransitions registered).Mirrors (ofTransitions registered) := by
  have inStep := inStep_ofTransitions registered
  have distinct := nodup_keys_ofTransitions registered
  have lists := lists_ofTransitions registered
  refine ⟨inStep.order ▸ distinct, fun key => inStep.mem_groups.symm, ?_, inStep.get,
    inStep.lookup, inStep.transitions distinct, ?_, inStep.isEmpty⟩
  · rintro key targets found rfl
    -- A key has come with some transition, whose target is still there.
    have known : key ∈ (ofTransitions registered).keys := by
      rw [← inStep.order, ← inStep.mem_groups, Std.HashMap.mem_iff_isSome_getElem?, found]
      rfl
    rw [keys_ofTransitions, mem_eraseDups_keys] at known
    obtain ⟨t, member, rfl⟩ := known
    have none : (ofTransitions registered).get t.key = [] := by
      rw [← inStep.get, Index.get, found]
      rfl
    rw [lists.get, List.map_eq_nil_iff, List.filter_eq_nil_iff] at none
    exact none t member (decide_eq_true rfl)
  · rw [inStep.size distinct, inStep.transitions distinct, lists.length]

end Table

/-- Whatever edits lead to a draft, its table holds the transitions that they registered: under each
key those with that key, in their order, and all of them group by group, the groups in the order in
which their keys came first. So does the table of an automaton hold the rules of its definition. An
index of the same transitions says the same, and its two parts agree. -/
theorem registered_transitions_listed :
    (∀ {k : Draft} {registered : List Transition}, Draft.Assembled k registered →
      k.table.Lists registered ∧ (Table.Index.ofTransitions registered).Mirrors k.table) ∧
    ∀ {d : Definition} {a : Automaton}, Automaton.ofDefinition d = .ok a →
      a.table.Lists (d.rules.map Rule.transition) ∧
        (Table.Index.ofTransitions (d.rules.map Rule.transition)).Mirrors a.table := by
  refine ⟨?_, ?_⟩
  · intro k registered assembled
    rw [assembled.table_eq]
    exact ⟨Table.lists_ofTransitions registered, Table.mirrors_ofTransitions registered⟩
  · intro d a accepted
    rw [(Automaton.ofDefinition_built accepted).table_eq]
    exact ⟨Table.lists_ofTransitions _, Table.mirrors_ofTransitions _⟩

/-- Its second rule parts two others with one key. -/
def Definition.interleaved : Definition where
  name := "Interleaved"
  states := ["p"]
  inputAlphabet := ['a', 'b']
  stackAlphabet := ['X']
  initialState := "p"
  finalStates := []
  acceptance := .emptyStack
  bottom := none
  rules := [⟨"p", some 'a', none, "p", ['X']⟩, ⟨"p", some 'b', some 'X', "p", []⟩,
    ⟨"p", some 'a', none, "p", []⟩]

def Automaton.interleaved : Automaton where
  name := "Interleaved"
  states := ["p"]
  inputAlphabet := ['a', 'b']
  initialState := "p"
  finalStates := []
  acceptance := .emptyStack
  bottom := none
  table := ⟨[(⟨"p", some 'a', none⟩, [⟨"p", ['X']⟩, ⟨"p", []⟩]),
    (⟨"p", some 'b', some 'X'⟩, [⟨"p", []⟩])]⟩

/-- The third rule is listed with the first one, in front of the second. -/
theorem registered_transitions_listed_interleaved :
    Automaton.ofDefinition .interleaved = .ok .interleaved ∧
    let registered := Definition.interleaved.rules.map Rule.transition
    let index := Table.Index.ofTransitions registered
    index.transitions = [⟨⟨"p", some 'a', none⟩, ⟨"p", ['X']⟩⟩, ⟨⟨"p", some 'a', none⟩, ⟨"p", []⟩⟩,
      ⟨⟨"p", some 'b', some 'X'⟩, ⟨"p", []⟩⟩] ∧
    index.transitions.Perm registered ∧ index.size = 3 ∧ index.order.Nodup ∧
    ∃ k, Draft.Assembled k registered ∧ k.table.transitions = index.transitions := by
  have accepted : Automaton.ofDefinition .interleaved = .ok .interleaved := rfl
  obtain ⟨k, -, assembled, -⟩ := Automaton.ofDefinition_eq_ok accepted
  obtain ⟨drafts, automata⟩ := registered_transitions_listed
  obtain ⟨lists, mirrors⟩ := automata accepted
  refine ⟨accepted, ?_, mirrors.transitions ▸ lists.perm, mirrors.size.trans lists.size,
    mirrors.nodup, k, assembled, (drafts assembled).2.transitions.symm⟩
  rw [mirrors.transitions]
  decide

end Pushdown
