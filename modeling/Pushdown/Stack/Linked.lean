import Pushdown.Stack
import Pushdown.Stack.Memory

/-!
# Linked stacks

A stack as it lies in memory: a link to its topmost node, and the number of its nodes beside it.
Stacks that have grown out of one another share what they have in common, and none of the operations
changes a node. `Call` is what can be asked of stacks that are kept side by side in one memory.
-/

namespace Pushdown

/-- A stack of linked nodes. Its length is a natural number, as no memory holds more nodes than a
machine word can count. -/
structure Linked where
  top : Linked.Link
  len : Nat

namespace Linked

def new : Linked := ⟨none, 0⟩

def clone (s : Linked) : Owning Linked := return { s with top := ← share s.top }

def drop (s : Linked) : Owning Unit := release s.top

/-- Puts a symbol on top of a stack that is used up by that. -/
def pushOne (s : Linked) (symbol : Symbol) : Owning Linked := do
  let top ← allocate { symbol, below := ← share s.top }
  s.drop
  return { top, len := s.len + 1 }

def push (s : Linked) (word : Word) : Owning Linked := do
  word.foldlM pushOne (← s.clone)

def ofWord (word : Word) : Owning Linked := new.push word

def pop? (s : Linked) : Owning (Option Linked) := do
  let some a := s.top | return none
  let some cell := (← get).cell? a | throw .dangling
  let top ← share cell.below
  if s.len = 0 then throw .underflow
  return some { top, len := s.len - 1 }

/-- What is written to a hasher, one piece at a time. -/
inductive Written where
  | size (n : Nat)
  | scalar (value : UInt32)
  deriving DecidableEq, Repr

section Reading

variable (s : Linked) (m : Memory)

def isEmpty : Bool := s.top.isNone

def top? : Except Fault (Option Symbol) := do
  let some a := s.top | return none
  let some cell := m.cell? a | throw .dangling
  return some cell.symbol

/-- The symbols, topmost first. -/
def iter : Except Fault (List Symbol) := m.symbolsFrom s.top

def toWord : Except Fault Word := return (← s.iter m).reverse

/-- Whether two stacks are equal. Where their lengths differ their symbols are not looked at. -/
def same (t : Linked) : Except Fault Bool := do
  if s.len = t.len then return Stack.sameSymbols (← s.iter m) (← t.iter m)
  else return false

def render : Except Fault String := do
  if s.isEmpty then return Word.render [] else return String.ofList (← s.iter m)

/-- What a hasher is given of a stack: its length, and then its symbols from the top down. -/
def hashed : Except Fault (List Written) :=
  return .size s.len :: (← s.iter m).map (.scalar ·.val)

end Reading

/-- What can be asked of the stacks that are kept, each by its number. The answer is one stack more,
or for `drop` an empty one where the stack was. -/
inductive Call where
  | new
  | ofWord (word : Word)
  | push (i : Nat) (word : Word)
  | pop (i : Nat)
  | clone (i : Nat)
  | drop (i : Nat)
  deriving DecidableEq, Repr

def perform (shelf : List Linked) : Call → Owning (List Linked)
  | .new => return shelf ++ [new]
  | .ofWord word => return shelf ++ [← ofWord word]
  | .push i word => do
    let some s := shelf[i]? | return shelf
    return shelf ++ [← s.push word]
  | .pop i => do
    let some s := shelf[i]? | return shelf
    return shelf ++ (← s.pop?).toList
  | .clone i => do
    let some s := shelf[i]? | return shelf
    return shelf ++ [← s.clone]
  | .drop i => do
    let some s := shelf[i]? | return shelf
    s.drop
    return shelf.set i new

def performAll (calls : List Call) : Owning (List Linked) := calls.foldlM perform []

end Linked

end Pushdown
