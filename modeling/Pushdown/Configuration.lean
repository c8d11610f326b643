import Pushdown.Stack
import Pushdown.Transition

/-!
# Configurations

A configuration is all there is to know of a run at a moment: the state, how much of the input has
been read, and the stack.
-/

namespace Pushdown

structure Configuration where
  state : State
  cursor : Nat
  stack : Stack

/-- Compares what differs most often first. -/
instance : DecidableEq Configuration := fun c d =>
  decidable_of_iff (c.cursor = d.cursor ∧ c.stack = d.stack ∧ c.state = d.state) (by
    obtain ⟨state, cursor, stack⟩ := c
    obtain ⟨state', cursor', stack'⟩ := d
    simp only [Configuration.mk.injEq]
    exact ⟨fun ⟨h, h', h''⟩ => ⟨h'', h, h'⟩, fun ⟨h, h', h''⟩ => ⟨h', h'', h⟩⟩)

namespace Configuration

def remaining (c : Configuration) (word : Word) : Word := word.drop c.cursor

/-- A configuration of a run on `word` as `(state, unread input, stack)`, the stack top first. -/
def describe (c : Configuration) (word : Word) : String :=
  s!"({c.state}, {Word.render (c.remaining word)}, {c.stack.render})"

end Configuration

/-- Where a transition leads from a configuration in which its state and input symbol match, if the
stack has the symbol that it pops. -/
def Transition.fire? (t : Transition) (c : Configuration) : Option Configuration :=
  (c.stack.take? t.key.pops).map fun below =>
    { state := t.target.destination
      cursor := if t.key.reads.isSome then c.cursor + 1 else c.cursor
      stack := below.push t.target.pushes }

end Pushdown
