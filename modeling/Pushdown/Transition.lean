import Pushdown.Symbol

/-!
# Transitions

A transition is split into its key, which says where it applies, and its target, which says what
it does. A rule is a transition as a definition lists it. Keys are ordered by state, then by the
symbol read, then by the symbol popped, with "nothing" before every symbol.
-/

namespace Pushdown

namespace Transition

/-- Where a transition applies: in a state, on a symbol to read and a symbol to pop. -/
structure Key where
  state : State
  /-- The input symbol consumed, or `none` to read nothing. -/
  reads : Option Symbol
  /-- The stack symbol consumed, or `none` to leave the stack as it is. -/
  pops : Option Symbol
  deriving DecidableEq, Repr, Ord

structure Target where
  destination : State
  /-- The symbols to push, deepest first. -/
  pushes : Word
  deriving DecidableEq, Repr

def Key.render (key : Key) : String :=
  s!"({key.state}, {Symbol.orEpsilon key.reads}, {Symbol.orEpsilon key.pops})"

def Target.render (target : Target) : String :=
  s!"({target.destination}, {Word.render target.pushes})"

def Key.sort (keys : List Key) : List Key := keys.mergeSort fun a b => (compare a b).isLE

end Transition

structure Transition where
  key : Transition.Key
  target : Transition.Target
  deriving DecidableEq, Repr

def Transition.render (transition : Transition) : String :=
  s!"{transition.key.render} → {transition.target.render}"

structure Rule where
  origin : State
  reads : Option Symbol
  pops : Option Symbol
  destination : State
  pushes : Word
  deriving DecidableEq, Repr

namespace Rule

def key (rule : Rule) : Transition.Key := ⟨rule.origin, rule.reads, rule.pops⟩

def target (rule : Rule) : Transition.Target := ⟨rule.destination, rule.pushes⟩

def transition (rule : Rule) : Transition := ⟨rule.key, rule.target⟩

end Rule

end Pushdown
