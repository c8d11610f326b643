import Pushdown.Automaton.Draft

/-!
# Editing in place

The methods of a draft that is edited where it stands. A method that fails part of the way leaves
whatever it had changed by then. `Draft.apply` is what an edit comes to.
-/

namespace Pushdown

namespace Draft

/-- A method under way; changes outlast a failure. -/
abbrev Editing := ExceptT Error (StateM Draft)

def ask (check : Draft → Except Error Unit) : Editing Unit := do
  MonadExcept.ofExcept (check (← get))

def perform : Edit → Editing Unit
  | .addState state => modify fun d => { d with states := insertNew d.states state }
  | .addInputSymbol symbol =>
    modify fun d => { d with inputAlphabet := insertNew d.inputAlphabet symbol }
  | .addStackSymbol symbol =>
    modify fun d => { d with stackAlphabet := insertNew d.stackAlphabet symbol }
  | .setAcceptance acceptance => modify fun d => { d with acceptance }
  | .setInitialState state => do
    ask (·.checkState state)
    modify fun d => { d with initialState := some state }
  | .addFinalState state => do
    ask (·.checkState state)
    modify fun d => { d with finalStates := insertNew d.finalStates state }
  | .setBottom symbol => do
    ask (·.checkStackSymbol symbol)
    modify fun d => { d with bottom := some symbol }
  | .addRule rule => do
    ask (·.checkState rule.origin)
    ask (·.checkState rule.destination)
    rule.reads.forM fun x => ask (·.checkInputSymbol x)
    rule.pops.forM fun x => ask (·.checkStackSymbol x)
    rule.pushes.forM fun x => ask (·.checkStackSymbol x)
    modify fun d => { d with table := d.table.insert rule.transition }

/-- Adds a rule given by its parts, with what it pushes as one string. -/
def Edit.addTransition (origin : State) (reads pops : Option Symbol) (destination : State)
    (pushes : String) : Edit :=
  .addRule { origin, reads, pops, destination, pushes := pushes.toList }

end Draft

end Pushdown
