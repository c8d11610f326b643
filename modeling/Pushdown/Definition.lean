import Pushdown.Acceptance
import Pushdown.Transition

/-!
# Definitions

A definition is the plain description of a pushdown automaton. Nothing in it is checked; that is
the work of `Definition.check` and of `Automaton.ofDefinition`.
-/

namespace Pushdown

structure Definition where
  name : String
  /-- The states, in order of declaration. -/
  states : List State
  inputAlphabet : List Symbol
  stackAlphabet : List Symbol
  initialState : State
  finalStates : List State
  acceptance : Acceptance
  /-- The symbol on the stack when a run starts, or `none` to start on an empty stack. -/
  bottom : Option Symbol
  /-- The rules, in the order in which they are tried. -/
  rules : List Rule
  deriving DecidableEq, Repr

namespace Definition

/-- The number of keys, each counted once: in their order equal keys stand side by side. -/
def keyCount (d : Definition) : Nat :=
  (Transition.Key.sort (d.rules.map Rule.key)).eraseReps.length

/-- Whether two rules have the same key. Keys that only overlap do not count. -/
def hasSharedKeys (d : Definition) : Bool := d.keyCount < d.rules.length

end Definition

end Pushdown
