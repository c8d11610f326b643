import Mathlib.Data.Finset.Card
import Pushdown.Proofs.Listings
import Pushdown.Proofs.Tables

/-!
# Counting keys

The order of keys is total and tells different keys apart, so equal keys stand side by side once
keys are sorted, and what is left of them without repetitions are the keys of the table.
-/

namespace Pushdown

namespace Transition.Key

/-- Keys are compared field by field. -/
theorem compare_eq : (compare : Key → Key → Ordering) =
    compareLex (compareOn state) (compareLex (compareOn reads) (compareOn pops)) := by
  funext k k'
  show (compare k.state k'.state).then
    ((compare k.reads k'.reads).then ((compare k.pops k'.pops).then .eq)) = _
  rw [Ordering.then_eq]
  rfl

instance : Std.TransOrd Key := by
  show Std.TransCmp (compare : Key → Key → Ordering)
  rw [compare_eq]
  infer_instance

instance : Std.LawfulEqOrd Key where
  compare_self := Std.ReflCmp.compare_self
  eq_of_compare {k k'} same := by
    rw [compare_eq] at same
    obtain ⟨states, reads, pops⟩ : compare k.state k'.state = .eq ∧
        compare k.reads k'.reads = .eq ∧ compare k.pops k'.pops = .eq := by
      simpa [compareLex, compareOn, Ordering.then_eq_eq] using same
    obtain ⟨state, reads', pops'⟩ := k
    obtain ⟨state', reads'', pops''⟩ := k'
    obtain rfl : state = state' := Std.LawfulEqOrd.eq_of_compare states
    obtain rfl : reads' = reads'' := Std.LawfulEqOrd.eq_of_compare reads
    obtain rfl : pops' = pops'' := Std.LawfulEqOrd.eq_of_compare pops
    rfl

theorem isLE_antisymm (k k' : Key) (before : (compare k k').isLE = true)
    (after : (compare k' k).isLE = true) : k = k' :=
  Std.LawfulEqOrd.eq_of_compare (Std.OrientedCmp.isLE_antisymm before after)

end Transition.Key

namespace Definition

variable {d : Definition}

/-- The triples of origin, symbol read and symbol popped that occur among the rules. -/
def triples (d : Definition) : Finset (State × Option Symbol × Option Symbol) :=
  (d.rules.map fun rule => (rule.origin, rule.reads, rule.pops)).toFinset

theorem keyCount_eq_card (d : Definition) : d.keyCount = (d.rules.map Rule.key).toFinset.card := by
  have distinct := nodup_eraseReps Transition.Key.isLE_antisymm
    (pairwise_mergeSort_isLE (d.rules.map Rule.key))
  rw [keyCount, Transition.Key.sort, ← List.toFinset_card_of_nodup distinct]
  congr 1
  ext key
  rw [List.mem_toFinset, mem_eraseReps, List.mem_toFinset, List.mem_mergeSort]

theorem keyCount_eq_card_triples (d : Definition) : d.keyCount = d.triples.card := by
  let triple (key : Transition.Key) := (key.state, key.reads, key.pops)
  have injective : Function.Injective triple := by
    rintro ⟨state, reads, pops⟩ ⟨state', reads', pops'⟩ same
    cases same
    rfl
  have image : d.triples = (d.rules.map Rule.key).toFinset.image triple := by
    ext t
    simp [triples, triple, Rule.key]
  rw [keyCount_eq_card, image, Finset.card_image_of_injective _ injective]

theorem keyCount_eq_length_eraseDups (d : Definition) :
    d.keyCount = (d.rules.map Rule.key).eraseDups.length := by
  rw [keyCount_eq_card, ← List.toFinset_card_of_nodup (nodup_eraseDups _)]
  congr 1
  ext key
  simp

/-- Fewer keys than rules means that two rules have one key. -/
theorem hasSharedKeys_iff : d.hasSharedKeys = true ↔
    ∃ key, 2 ≤ (d.rules.filter (·.key = key)).length := by
  have counts : ∀ key,
      (d.rules.filter (·.key = key)).length = (d.rules.map Rule.key).count key := by
    intro key
    rw [List.count, List.countP_map, List.countP_eq_length_filter]
    rfl
  have length : (d.rules.map Rule.key).length = d.rules.length := List.length_map _
  have most : (d.rules.map Rule.key).toFinset.card ≤ (d.rules.map Rule.key).length :=
    List.toFinset_card_le _
  have distinct : (d.rules.map Rule.key).toFinset.card = (d.rules.map Rule.key).length ↔
      (d.rules.map Rule.key).Nodup := Multiset.toFinset_card_eq_card_iff_nodup
  calc
    d.hasSharedKeys = true ↔ (d.rules.map Rule.key).toFinset.card < d.rules.length := by
      rw [hasSharedKeys, decide_eq_true_eq, keyCount_eq_card]
    _ ↔ ¬ (d.rules.map Rule.key).Nodup := by
      rw [← distinct, ← length]
      omega
    _ ↔ ∃ key, 2 ≤ (d.rules.filter (·.key = key)).length := by
      simp only [counts, List.nodup_iff_count_le_one, not_forall, not_le]
      exact Iff.rfl

theorem keyCount_congr {d' : Definition} (same : ∀ rule, rule ∈ d'.rules ↔ rule ∈ d.rules) :
    d'.keyCount = d.keyCount := by
  rw [keyCount_eq_card, keyCount_eq_card]
  congr 1
  ext key
  simp [same]

end Definition

/-- However its rules are ordered and repeated, a definition has as many keys as there are different
triples of origin, symbol read and symbol popped among its rules. These are the keys of the table
that it is assembled to, and two rules share a key where the table has two targets under it. -/
theorem keyCount_counts_keys :
    (∀ d : Definition, d.keyCount = d.triples.card ∧
      (∀ rules, rules.Perm d.rules → { d with rules }.keyCount = d.keyCount) ∧
      ∀ rules, (∀ rule, rule ∈ rules ↔ rule ∈ d.rules) → { d with rules }.keyCount = d.keyCount) ∧
    ∀ {d : Definition} {a : Automaton}, Automaton.ofDefinition d = .ok a →
      d.keyCount = a.table.keys.length ∧
      d.keyCount = (Table.Index.ofTransitions (d.rules.map Rule.transition)).order.length ∧
      (d.hasSharedKeys = true ↔ ∃ key, 2 ≤ (a.table.get key).length) := by
  refine ⟨?_, ?_⟩
  · intro d
    refine ⟨d.keyCount_eq_card_triples, ?_, ?_⟩
    · intro rules perm
      exact Definition.keyCount_congr fun rule => perm.mem_iff
    · intro rules same
      exact Definition.keyCount_congr same
  · intro d a accepted
    have table := (Automaton.ofDefinition_built accepted).table_eq
    have keys : a.table.keys = (d.rules.map Rule.key).eraseDups := by
      rw [table, Table.keys_ofTransitions, List.map_map]
      rfl
    have order := (Table.inStep_ofTransitions (d.rules.map Rule.transition)).order
    rw [← table] at order
    refine ⟨by rw [keys, d.keyCount_eq_length_eraseDups],
      by rw [order, keys, d.keyCount_eq_length_eraseDups], ?_⟩
    rw [Definition.hasSharedKeys_iff]
    refine exists_congr fun key => ?_
    rw [table, (Table.lists_ofTransitions _).get, List.length_map, List.filter_map,
      List.length_map]
    rfl

/-- Two of the three rules of `Definition.interleaved` have one key, and stating all of them twice,
last one first, brings no new key. -/
theorem keyCount_counts_keys_interleaved :
    let d := Definition.interleaved
    let twice := d.rules.reverse ++ d.rules
    Automaton.ofDefinition d = .ok .interleaved ∧ Automaton.interleaved.table.keys.length = 2 ∧
    d.keyCount = 2 ∧ d.hasSharedKeys = true ∧ { d with rules := d.rules.reverse }.keyCount = 2 ∧
    { d with rules := twice }.keyCount = 2 := by
  intro d twice
  have accepted : Automaton.ofDefinition d = .ok .interleaved := rfl
  obtain ⟨-, perm, repeated⟩ := keyCount_counts_keys.1 d
  obtain ⟨keys, -, shared⟩ := keyCount_counts_keys.2 accepted
  have count : d.keyCount = 2 := keys
  exact ⟨accepted, rfl, count, shared.mpr ⟨⟨"p", some 'a', none⟩, by decide⟩,
    (perm _ d.rules.reverse_perm).trans count, (repeated twice (by simp [twice])).trans count⟩

end Pushdown
