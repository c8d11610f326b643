import Pushdown.Acceptance
import Pushdown.Table

/-!
# Automata

An automaton is what a complete draft is frozen into: every state and symbol that its transitions
name is known. See `Draft.freeze` and `Automaton.ofDefinition`.
-/

namespace Pushdown

structure Automaton where
  name : String
  /-- The states, in order of registration. -/
  states : List State
  inputAlphabet : List Symbol
  initialState : State
  finalStates : List State
  acceptance : Acceptance
  /-- The symbol on the stack when a run starts, or `none` to start on an empty stack. -/
  bottom : Option Symbol
  table : Table
  deriving DecidableEq, Repr

namespace Automaton

def isFinal (a : Automaton) (state : State) : Bool := state ∈ a.finalStates

def readsSymbol (a : Automaton) (symbol : Symbol) : Bool := symbol ∈ a.inputAlphabet

def withAcceptance (a : Automaton) (acceptance : Acceptance) : Automaton := { a with acceptance }

end Automaton

end Pushdown
