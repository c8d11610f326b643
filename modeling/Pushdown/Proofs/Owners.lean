import Pushdown.Stack.Memory

/-!
# Owners of nodes

The memory that linked stacks lie in, seen by those who hold links into it. `Memory.Holds` says of a
list of links, each with the symbols that it leads to, that nobody else has a link into the memory:
the owners that a node counts are the links in the list that lead to it and the nodes that lie on
it. To share a link, to make a node and to give a link up each carry this over to what is held then,
and none of it can fail.
-/

namespace Pushdown

namespace Linked

namespace Memory

variable {m m' : Memory} {a b : Address} {cell : Cell} {link : Link} {xs : List Symbol}
  {held : List (Link × List Symbol)}

/-! ### Places in memory -/

/-- What a link counts for among the owners of a node. -/
def tally (link : Link) (a : Address) : Nat := if link = some a then 1 else 0

def linkOf (place : Option Cell) : Link := place.bind (·.below)

/-- How many nodes lie on the node at an address. -/
def covers (m : Memory) (a : Address) : Nat := m.cells.countP (linkOf · = some a)

def owners (m : Memory) (a : Address) : Nat := (m.cell? a).elim 0 Cell.owners

theorem lt_size_of_cell? (found : m.cell? a = some cell) : a < m.cells.size := by
  rw [cell?, Option.join_eq_some_iff] at found
  exact (Array.getElem?_eq_some_iff.mp found).1

theorem owners_eq (found : m.cell? a = some cell) : m.owners a = cell.owners := by
  rw [owners, found]
  rfl

theorem covers_pos (found : m.cell? a = some cell) (below : cell.below = some b) :
    0 < m.covers b := by
  rw [cell?, Option.join_eq_some_iff] at found
  rw [covers, Array.countP_pos_iff]
  exact ⟨some cell, Array.mem_of_getElem? found, decide_eq_true below⟩

theorem cell?_put {place : Option Cell} {older : ∀ c ∈ place, ∀ b ∈ c.below, b < a}
    (inside : a < m.cells.size) :
    (m.put a place older).cell? b = if b = a then place else m.cell? b := by
  rw [cell?, put, Array.getElem?_setIfInBounds]
  by_cases same : a = b
  · subst same
    simp [inside]
  · rw [if_neg same, if_neg (Ne.symm same), cell?]

theorem covers_put {place : Option Cell} {older : ∀ c ∈ place, ∀ b ∈ c.below, b < a}
    (inside : a < m.cells.size) :
    (m.put a place older).covers b + tally (linkOf (m.cell? a)) b =
      m.covers b + tally (linkOf place) b := by
  have cells : (m.put a place older).cells = m.cells.set a place :=
    (Array.setIfInBounds_def ..).trans (dif_pos inside)
  have there : m.cell? a = m.cells[a] := by simp [cell?, inside]
  have counted := Array.boole_getElem_le_countP (p := (linkOf · = some b)) inside
  rw [covers, cells, Array.countP_set inside, there, covers]
  simp only [tally, decide_eq_true_eq] at counted ⊢
  omega

theorem cell?_setOwners (found : m.cell? a = some cell) (n : Nat) :
    (m.setOwners found n).cell? b = if b = a then some { cell with owners := n } else m.cell? b :=
  cell?_put (lt_size_of_cell? found)

theorem covers_setOwners (found : m.cell? a = some cell) (n : Nat) :
    (m.setOwners found n).covers b = m.covers b := by
  have counted : (m.setOwners found n).covers b + _ = _ := covers_put (lt_size_of_cell? found)
  rw [found] at counted
  exact Nat.add_right_cancel counted

theorem owners_setOwners (found : m.cell? a = some cell) (n : Nat) :
    (m.setOwners found n).owners b + cell.owners * tally (some a) b =
      m.owners b + n * tally (some a) b := by
  rw [owners, cell?_setOwners, tally]
  by_cases same : b = a
  · subst same
    simp [owners_eq found, Nat.add_comm]
  · simp [owners, same, Ne.symm same]

theorem cell?_free (found : m.cell? a = some cell) :
    (m.free a).cell? b = if b = a then none else m.cell? b :=
  cell?_put (lt_size_of_cell? found)

theorem covers_free (found : m.cell? a = some cell) :
    (m.free a).covers b + tally cell.below b = m.covers b := by
  have counted : (m.free a).covers b + _ = _ := covers_put (lt_size_of_cell? found)
  rw [found] at counted
  exact counted

theorem owners_free (found : m.cell? a = some cell) :
    (m.free a).owners b + cell.owners * tally (some a) b = m.owners b := by
  rw [owners, cell?_free found, tally]
  by_cases same : b = a
  · subst same
    simp [owners_eq found]
  · simp [owners, same, Ne.symm same]

section Add

variable {node : Node} {older : ∀ b ∈ node.below, b < m.cells.size}

theorem cell?_add : (m.add node older).cell? b =
    if b = m.cells.size then some { node with owners := 1 } else m.cell? b := by
  rw [cell?, add, Array.getElem?_push]
  split <;> rfl

theorem covers_add : (m.add node older).covers b = m.covers b + tally node.below b := by
  rw [covers, add, Array.countP_push, tally, covers]
  by_cases under : node.below = some b <;> simp [linkOf, under]

theorem owners_add :
    (m.add node older).owners b = m.owners b + tally (some m.cells.size) b := by
  rw [owners, cell?_add, tally]
  by_cases new : b = m.cells.size
  · subst new
    simp [owners, cell?]
  · simp [owners, new, Ne.symm new]

end Add

/-! ### What a link leads to -/

theorem symbolsFrom_none : m.symbolsFrom none = .ok [] := by
  rw [symbolsFrom]
  rfl

theorem symbolsFrom_some : m.symbolsFrom (some a) = .ok xs ↔
    ∃ cell below, m.cell? a = some cell ∧ m.symbolsFrom cell.below = .ok below ∧
      cell.symbol :: below = xs := by
  rw [symbolsFrom]
  split
  · next absent => simp [absent]
  · next cell found =>
    cases rest : m.symbolsFrom cell.below with
    | error fault => simp [found, rest, Functor.map, Except.map]
    | ok below => simp [found, rest, Functor.map, Except.map]

theorem symbolsFrom_eq_nil : m.symbolsFrom link = .ok [] ↔ link = none := by
  cases link with
  | none => simp [symbolsFrom_none]
  | some a => simp [symbolsFrom_some]

theorem symbolsFrom_eq_cons {x : Symbol} : m.symbolsFrom link = .ok (x :: xs) ↔
    ∃ a cell, link = some a ∧ m.cell? a = some cell ∧ cell.symbol = x ∧
      m.symbolsFrom cell.below = .ok xs := by
  cases link with
  | none => simp [symbolsFrom_none]
  | some a =>
    rw [symbolsFrom_some]
    constructor
    · rintro ⟨cell, below, found, rest, same⟩
      obtain ⟨rfl, rfl⟩ := List.cons.inj same
      exact ⟨a, cell, rfl, found, rfl, rest⟩
    · rintro ⟨b, cell, same, found, rfl, rest⟩
      obtain rfl := Option.some.inj same
      exact ⟨cell, xs, found, rest, rfl⟩

theorem lt_size_of_symbolsFrom (reads : m.symbolsFrom link = .ok xs) :
    ∀ b ∈ link, b < m.cells.size := by
  rintro b rfl
  obtain ⟨cell, below, found, -⟩ := symbolsFrom_some.mp reads
  exact lt_size_of_cell? found

/-- A link leads to the same symbols in two memories if all the nodes on the way are in both. -/
theorem symbolsFrom_of_keep (keep : Address → Prop)
    (kept : ∀ a cell, keep a → m.cell? a = some cell →
      (∃ owners, m'.cell? a = some { cell with owners }) ∧ ∀ b ∈ cell.below, keep b)
    (leads : ∀ a ∈ link, keep a) (reads : m.symbolsFrom link = .ok xs) :
    m'.symbolsFrom link = .ok xs := by
  induction xs generalizing link with
  | nil =>
    obtain rfl := symbolsFrom_eq_nil.mp reads
    exact symbolsFrom_none
  | cons x xs ih =>
    obtain ⟨a, cell, rfl, found, rfl, rest⟩ := symbolsFrom_eq_cons.mp reads
    obtain ⟨⟨owners, found'⟩, leads'⟩ := kept a cell (leads a rfl) found
    exact symbolsFrom_eq_cons.mpr ⟨a, _, rfl, found', rfl, ih leads' rest⟩

theorem symbolsFrom_setOwners (found : m.cell? a = some cell) (owners : Nat)
    (reads : m.symbolsFrom link = .ok xs) :
    (m.setOwners found owners).symbolsFrom link = .ok xs := by
  refine symbolsFrom_of_keep (fun _ => True) ?_ (fun _ _ => trivial) reads
  intro b other _ found'
  refine ⟨?_, fun _ _ => trivial⟩
  rw [cell?_setOwners]
  split
  · next same =>
    subst same
    obtain rfl := Option.some.inj (found.symm.trans found')
    exact ⟨owners, rfl⟩
  · exact ⟨other.owners, found'⟩

theorem symbolsFrom_add {node : Node} {older : ∀ b ∈ node.below, b < m.cells.size}
    (reads : m.symbolsFrom link = .ok xs) : (m.add node older).symbolsFrom link = .ok xs := by
  refine symbolsFrom_of_keep (fun _ => True) ?_ (fun _ _ => trivial) reads
  intro b other _ found
  refine ⟨⟨other.owners, ?_⟩, fun _ _ => trivial⟩
  rw [cell?_add, if_neg (Nat.ne_of_lt (lt_size_of_cell? found))]
  exact found

/-- To free a node disturbs only those links that lead to it, if no node lies on it. -/
theorem symbolsFrom_free (found : m.cell? a = some cell) (uncovered : m.covers a = 0)
    (elsewhere : link ≠ some a) (reads : m.symbolsFrom link = .ok xs) :
    (m.free a).symbolsFrom link = .ok xs := by
  refine symbolsFrom_of_keep (· ≠ a) ?_ ?_ reads
  · intro b other apart found'
    refine ⟨⟨other.owners, ?_⟩, ?_⟩
    · rw [cell?_free found, if_neg apart]
      exact found'
    · rintro b below rfl
      exact Nat.ne_of_gt (covers_pos found' below) uncovered
  · rintro b leads rfl
    exact elsewhere leads

/-! ### Links that are held -/

/-- The links into a memory that are held are these, and they lead to these symbols. -/
structure Holds (m : Memory) (held : List (Link × List Symbol)) : Prop where
  counted : ∀ a, (held.map Prod.fst).count (some a) + m.covers a = m.owners a
  reads : ∀ p ∈ held, m.symbolsFrom p.1 = .ok p.2

theorem holds_empty : empty.Holds [] := ⟨fun _ => rfl, nofun⟩

theorem Holds.perm {held' : List (Link × List Symbol)} (holds : m.Holds held)
    (perm : held.Perm held') : m.Holds held' where
  counted a := by rw [← holds.counted a, (perm.map Prod.fst).count_eq]
  reads p member := holds.reads p (perm.mem_iff.mpr member)

theorem Holds.counted_cons (holds : m.Holds ((link, xs) :: held)) (a : Address) :
    (held.map Prod.fst).count (some a) + tally link a + m.covers a = m.owners a := by
  rw [← holds.counted a, List.map_cons, List.count_cons]
  simp only [tally, beq_iff_eq]

theorem holds_cons
    (counted : ∀ a, (held.map Prod.fst).count (some a) + tally link a + m.covers a = m.owners a)
    (reads : m.symbolsFrom link = .ok xs) (others : ∀ p ∈ held, m.symbolsFrom p.1 = .ok p.2) :
    m.Holds ((link, xs) :: held) where
  counted a := by
    rw [List.map_cons, List.count_cons]
    simpa only [tally, beq_iff_eq] using counted a
  reads := List.forall_mem_cons.mpr ⟨reads, others⟩

theorem Holds.of_none (holds : m.Holds ((none, xs) :: held)) : m.Holds held where
  counted b := holds.counted_cons b
  reads p member := holds.reads p (List.mem_cons_of_mem _ member)

theorem Holds.setOwners_succ (holds : m.Holds held) (reads : m.symbolsFrom (some a) = .ok xs)
    (found : m.cell? a = some cell) :
    (m.setOwners found (cell.owners + 1)).Holds ((some a, xs) :: held) := by
  refine holds_cons ?_ (symbolsFrom_setOwners found _ reads)
    fun p member => symbolsFrom_setOwners found _ (holds.reads p member)
  intro b
  have counted := holds.counted b
  have owners := owners_setOwners (b := b) found (cell.owners + 1)
  rw [Nat.add_one_mul] at owners
  rw [covers_setOwners]
  omega

theorem Holds.setOwners_pred (holds : m.Holds ((some a, xs) :: held))
    (found : m.cell? a = some cell) :
    (m.setOwners found (cell.owners - 1)).Holds held where
  counted b := by
    have one_less : cell.owners - 1 + 1 = cell.owners := by
      have counted := holds.counted_cons a
      rw [owners_eq found, tally, if_pos rfl] at counted
      omega
    have counted := holds.counted_cons b
    have owners := owners_setOwners (b := b) found (cell.owners - 1)
    rw [← one_less, Nat.add_one_mul, one_less] at owners
    rw [covers_setOwners]
    omega
  reads p member := symbolsFrom_setOwners found _ (holds.reads p (List.mem_cons_of_mem _ member))

theorem Holds.add (node : Node) (holds : m.Holds ((node.below, xs) :: held))
    (older : ∀ b ∈ node.below, b < m.cells.size) :
    (m.add node older).Holds ((some m.cells.size, node.symbol :: xs) :: held) := by
  obtain ⟨reads, others⟩ := List.forall_mem_cons.mp holds.reads
  refine holds_cons ?_ ?_ fun p member => symbolsFrom_add (others p member)
  · intro b
    have counted := holds.counted_cons b
    rw [covers_add, owners_add]
    omega
  · exact symbolsFrom_some.mpr ⟨_, xs, cell?_add.trans (if_pos rfl), symbolsFrom_add reads, rfl⟩

theorem Holds.free {below : List Symbol} (holds : m.Holds ((some a, xs) :: held))
    (found : m.cell? a = some cell) (last : cell.owners = 1)
    (reads : m.symbolsFrom cell.below = .ok below) :
    (m.free a).Holds ((cell.below, below) :: held) := by
  -- The one owner is the link that is given up, so nothing else that is held comes past the node.
  obtain ⟨elsewhere, uncovered⟩ : (held.map Prod.fst).count (some a) = 0 ∧ m.covers a = 0 := by
    have counted := holds.counted_cons a
    rw [owners_eq found, last, tally, if_pos rfl] at counted
    omega
  refine holds_cons ?_ ?_ ?_
  · intro b
    have counted := holds.counted_cons b
    have covers := covers_free (b := b) found
    have owners := owners_free (b := b) found
    rw [last, Nat.one_mul] at owners
    omega
  · refine symbolsFrom_free found uncovered ?_ reads
    intro same
    exact Nat.lt_irrefl a (m.older found a same)
  · intro p member
    refine symbolsFrom_free found uncovered ?_ (holds.reads p (List.mem_cons_of_mem _ member))
    intro same
    exact List.count_eq_zero.mp elsewhere (same ▸ List.mem_map_of_mem member)

end Memory

/-! ### Operations that succeed -/

/-- An operation is carried out on a memory, with this answer and this memory after it. -/
def Succeeds {α : Type} (action : Owning α) (m : Memory) (post : α → Memory → Prop) : Prop :=
  ∃ x m', action.run m = .ok x m' ∧ post x m'

section Succeeds

variable {α β : Type} {action : Owning α} {next : α → Owning β} {m : Memory}
  {mid : α → Memory → Prop} {post : β → Memory → Prop}

theorem succeeds_pure {x : β} (holds : post x m) : Succeeds (pure x) m post :=
  ⟨x, m, rfl, holds⟩

theorem Succeeds.bind (first : Succeeds action m mid)
    (second : ∀ x m', mid x m' → Succeeds (next x) m' post) :
    Succeeds (action >>= next) m post := by
  obtain ⟨x, m', ran, holds⟩ := first
  obtain ⟨y, m'', ran', holds'⟩ := second x m' holds
  refine ⟨y, m'', ?_, holds'⟩
  rw [EStateM.run_bind, ran]
  exact ran'

end Succeeds

section Links

open Memory

variable {m : Memory} {a : Address} {cell : Cell} {link : Link} {x : Symbol}
  {xs : List Symbol} {held : List (Link × List Symbol)}

theorem run_share (found : m.cell? a = some cell) :
    (share (some a)).run m = .ok (some a) (m.setOwners found (cell.owners + 1)) := by
  simp only [share, EStateM.run_bind, EStateM.run_get]
  split
  · next absent => cases absent.symm.trans found
  · next cell' found' =>
    obtain rfl := Option.some.inj (found'.symm.trans found)
    rfl

theorem run_release (found : m.cell? a = some cell) :
    (release (some a)).run m =
      if cell.owners = 1 then (release cell.below).run (m.free a)
      else .ok () (m.setOwners found (cell.owners - 1)) := by
  rw [release]
  simp only [EStateM.run_bind, EStateM.run_get]
  split
  · next absent => cases absent.symm.trans found
  · next cell' found' =>
    obtain rfl := Option.some.inj (found'.symm.trans found)
    split <;> rfl

theorem share_succeeds (holds : m.Holds held) (reads : m.symbolsFrom link = .ok xs) :
    Succeeds (share link) m fun link' m' => link' = link ∧ m'.Holds ((link, xs) :: held) := by
  cases link with
  | none =>
    exact ⟨none, m, rfl, rfl, holds_cons holds.counted reads holds.reads⟩
  | some a =>
    obtain ⟨cell, below, found, -⟩ := symbolsFrom_some.mp reads
    exact ⟨some a, _, run_share found, rfl, holds.setOwners_succ reads found⟩

theorem allocate_succeeds (holds : m.Holds ((link, xs) :: held)) :
    Succeeds (allocate ⟨x, link⟩) m fun link' m' => m'.Holds ((link', x :: xs) :: held) := by
  have older : ∀ b ∈ link, b < m.cells.size :=
    lt_size_of_symbolsFrom (holds.reads _ List.mem_cons_self)
  refine ⟨some m.cells.size, m.add ⟨x, link⟩ older, ?_, holds.add ⟨x, link⟩ older⟩
  simp only [allocate, EStateM.run_bind, EStateM.run_get]
  rw [dif_pos older]
  rfl

theorem release_succeeds (holds : m.Holds ((link, xs) :: held)) :
    Succeeds (release link) m fun _ m' => m'.Holds held := by
  have reads := holds.reads _ List.mem_cons_self
  induction xs generalizing link m with
  | nil =>
    obtain rfl := symbolsFrom_eq_nil.mp reads
    exact ⟨(), m, by rw [release]; rfl, holds.of_none⟩
  | cons x xs ih =>
    obtain ⟨a, cell, rfl, found, -, rest⟩ := symbolsFrom_eq_cons.mp reads
    by_cases last : cell.owners = 1
    · have freed := holds.free found last rest
      obtain ⟨_, m', ran, holds'⟩ := ih freed (freed.reads _ List.mem_cons_self)
      exact ⟨(), m', (run_release found).trans ((if_pos last).trans ran), holds'⟩
    · exact ⟨(), _, (run_release found).trans (if_neg last), holds.setOwners_pred found⟩

end Links

end Linked

end Pushdown
