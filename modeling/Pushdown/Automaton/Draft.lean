import Pushdown.Automaton
import Pushdown.Definition
import Pushdown.Error

/-!
# Drafts

An automaton is put together as a draft, edit by edit. An edit may use only what was registered
before it; one that is refused changes nothing.
-/

namespace Pushdown

structure Draft where
  name : String
  states : List State
  inputAlphabet : List Symbol
  stackAlphabet : List Symbol
  initialState : Option State
  finalStates : List State
  acceptance : Acceptance
  bottom : Option Symbol
  table : Table
  deriving DecidableEq, Repr

namespace Draft

def blank (name : String) (acceptance : Acceptance) : Draft where
  name
  states := []
  inputAlphabet := []
  stackAlphabet := []
  initialState := none
  finalStates := []
  acceptance
  bottom := none
  table := .empty

inductive Edit where
  | addState (state : State)
  | addInputSymbol (symbol : Symbol)
  | addStackSymbol (symbol : Symbol)
  | setAcceptance (acceptance : Acceptance)
  | setInitialState (state : State)
  | addFinalState (state : State)
  | setBottom (symbol : Symbol)
  | addRule (rule : Rule)
  deriving DecidableEq, Repr

@[specialize] def insertNew {α : Type} [DecidableEq α] (xs : List α) (x : α) : List α :=
  if xs.any (· = x) then xs else xs ++ [x]

@[simp] theorem mem_insertNew {α : Type} [DecidableEq α] (xs : List α) (x y : α) :
    y ∈ insertNew xs x ↔ y ∈ xs ∨ y = x := by
  by_cases h : x ∈ xs
  · simp only [insertNew, List.any_eq_true, decide_eq_true_eq, exists_eq_right, h, if_true]
    exact ⟨.inl, fun either => either.elim id fun same => same ▸ h⟩
  · simp [insertNew, h]

def checkState (d : Draft) (state : State) : Except Error Unit :=
  if state ∈ d.states then .ok () else .error (.unknownState state)

def checkInputSymbol (d : Draft) (symbol : Symbol) : Except Error Unit :=
  if symbol ∈ d.inputAlphabet then .ok () else .error (.foreignSymbol symbol .input)

def checkStackSymbol (d : Draft) (symbol : Symbol) : Except Error Unit :=
  if symbol ∈ d.stackAlphabet then .ok () else .error (.foreignSymbol symbol .stack)

/-- Checks both ends of a rule, then the symbols it reads, pops and pushes. -/
def checkRule (d : Draft) (rule : Rule) : Except Error Unit := do
  d.checkState rule.origin
  d.checkState rule.destination
  rule.reads.forM d.checkInputSymbol
  rule.pops.forM d.checkStackSymbol
  rule.pushes.forM d.checkStackSymbol

def apply (d : Draft) : Edit → Except Error Draft
  | .addState state => .ok { d with states := insertNew d.states state }
  | .addInputSymbol symbol => .ok { d with inputAlphabet := insertNew d.inputAlphabet symbol }
  | .addStackSymbol symbol => .ok { d with stackAlphabet := insertNew d.stackAlphabet symbol }
  | .setAcceptance acceptance => .ok { d with acceptance }
  | .setInitialState state => do
    d.checkState state
    return { d with initialState := some state }
  | .addFinalState state => do
    d.checkState state
    return { d with finalStates := insertNew d.finalStates state }
  | .setBottom symbol => do
    d.checkStackSymbol symbol
    return { d with bottom := some symbol }
  | .addRule rule => do
    d.checkRule rule
    return { d with table := d.table.insert rule.transition }

/-- The draft after a series of edits, up to the first that is refused. -/
def applyAll (d : Draft) (edits : List Edit) : Except Error Draft := edits.foldlM apply d

/-- The automaton that a draft describes; it needs a state and an initial state. -/
def freeze (d : Draft) : Except Error Automaton :=
  if d.states.isEmpty then .error .noStates
  else
    match d.initialState with
    | none => .error .noInitialState
    | some initialState => .ok {
        name := d.name
        states := d.states
        inputAlphabet := d.inputAlphabet
        initialState
        finalStates := d.finalStates
        acceptance := d.acceptance
        bottom := d.bottom
        table := d.table }

/-- The edits that enter a definition: what it declares comes before what uses it. -/
def editsOf (d : Definition) : List Edit :=
  d.states.map .addState ++ d.inputAlphabet.map .addInputSymbol ++
    d.stackAlphabet.map .addStackSymbol ++ [.setInitialState d.initialState] ++
    d.finalStates.map .addFinalState ++ (d.bottom.map Edit.setBottom).toList ++
    d.rules.map .addRule

end Draft

def Automaton.ofDefinition (d : Definition) : Except Error Automaton := do
  let draft ← (Draft.blank d.name d.acceptance).applyAll (Draft.editsOf d)
  draft.freeze

end Pushdown
