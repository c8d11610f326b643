import Pushdown.Symbol

/-!
# Nodes in memory

The memory that linked stacks lie in. A node holds a symbol and a link to the node below it, and
many links may lead to one node. A node counts them, as its owners, and is freed with the last one;
with it goes its own link. `symbolsFrom` is what a link leads to.
-/

namespace Pushdown

namespace Linked

/-- Addresses are counted up. The address of a freed node is not given out again. -/
abbrev Address := Nat

abbrev Link := Option Address

structure Node where
  symbol : Symbol
  below : Link

/-- A node in memory, with the number of links that lead to it. -/
structure Cell extends Node where
  owners : Nat

inductive Fault where
  /-- A link leads to a node that is not there. -/
  | dangling
  /-- One is to be taken from a length of zero. -/
  | underflow
  deriving DecidableEq, Repr

structure Memory where
  /-- The nodes by their addresses. The place of one that was freed is empty. -/
  cells : Array (Option Cell)
  /-- A node is put on one that is there already. -/
  older : ∀ {a : Address} {cell : Cell}, cells[a]?.join = some cell → ∀ b ∈ cell.below, b < a

/-- Operations on a memory; one that is given up leaves it as it is then. -/
abbrev Owning := EStateM Fault Memory

namespace Memory

def empty : Memory := { cells := #[], older := by simp }

def cell? (m : Memory) (a : Address) : Option Cell := m.cells[a]?.join

/-- Fills the place at an address anew, or empties it. -/
def put (m : Memory) (a : Address) (cell : Option Cell)
    (older : ∀ c ∈ cell, ∀ b ∈ c.below, b < a) : Memory where
  cells := m.cells.setIfInBounds a cell
  older := by
    intro a' cell' found
    rw [Array.getElem?_setIfInBounds] at found
    split at found
    · next same =>
      subst same
      split at found
      · exact older cell' found
      · cases found
    · exact m.older found

/-- Puts a node that has one owner in a place of its own, after all others. -/
def add (m : Memory) (node : Node) (older : ∀ b ∈ node.below, b < m.cells.size) : Memory where
  cells := m.cells.push (some { node with owners := 1 })
  older := by
    intro a cell found
    rw [Array.getElem?_push] at found
    split at found
    · next same =>
      subst same
      obtain rfl := Option.some.inj found
      exact older
    · exact m.older found

def setOwners (m : Memory) {a : Address} {cell : Cell} (found : m.cell? a = some cell)
    (owners : Nat) : Memory :=
  m.put a (some { cell with owners }) fun _ same b below => by
    obtain rfl := Option.some.inj same
    exact m.older found b below

def free (m : Memory) (a : Address) : Memory := m.put a none nofun

/-- How high up in memory a link leads. -/
def rise (link : Link) : Nat := link.elim 0 (· + 1)

theorem rise_below {m : Memory} {a : Address} {cell : Cell} (found : m.cell? a = some cell) :
    rise cell.below < rise (some a) := by
  cases below : cell.below with
  | none => exact Nat.zero_lt_succ a
  | some b => exact Nat.succ_lt_succ (m.older found b below)

def symbolsFrom (m : Memory) : Link → Except Fault (List Symbol)
  | none => return []
  | some a =>
    match _ : m.cell? a with
    | none => throw .dangling
    | some cell => return cell.symbol :: (← m.symbolsFrom cell.below)
termination_by link => rise link
decreasing_by exact rise_below ‹_›

end Memory

def share (link : Link) : Owning Link := do
  let some a := link | return none
  let m ← get
  match found : m.cell? a with
  | none => throw .dangling
  | some cell =>
    set (m.setOwners found (cell.owners + 1))
    return some a

/-- Makes a node, and the first link to it. The link that the node is given becomes its own. -/
def allocate (node : Node) : Owning Link := do
  let m ← get
  let a := m.cells.size
  if older : ∀ b ∈ node.below, b < a then
    set (m.add node older)
    return some a
  else
    throw .dangling

/-- Gives up a link. If it is the last one to a node, the node is taken out of memory and its own
link is given up in turn. -/
def release : Link → Owning Unit
  | none => return
  | some a => do
    let m ← get
    match found : m.cell? a with
    | none => throw .dangling
    | some cell =>
      if cell.owners = 1 then
        set (m.free a)
        release cell.below
      else
        set (m.setOwners found (cell.owners - 1))
termination_by link => Memory.rise link
decreasing_by exact Memory.rise_below found

end Linked

end Pushdown
