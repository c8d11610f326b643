import Pushdown.Definition
import Pushdown.Error

/-!
# Checking a definition

`check` looks at a whole definition and names the first thing that is wrong with it, in a fixed
order: its states, its initial state, its final states, the ends of its rules, its symbols. It looks
at all of these, whether or not it has found something before.
-/

namespace Pushdown.Definition

/-- The first state in a list that equals one before it, or one of those already seen. -/
def firstRepeated (seen : List State) : List State → Option State
  | [] => none
  | state :: rest => if seen.any (· = state) then some state else firstRepeated (state :: seen) rest

def checkStates (d : Definition) : Except Error Unit :=
  if d.states.isEmpty then .error .noStates
  else
    match firstRepeated [] d.states with
    | some state => .error (.repeatedState state)
    | none => .ok ()

def checkInitial (d : Definition) : Except Error Unit :=
  if d.initialState ∈ d.states then .ok () else .error (.undeclaredInitial d.initialState)

/-- The final states that are not declared, sorted and each once. -/
def undeclaredFinals (d : Definition) : List State :=
  ((d.finalStates.filter (· ∉ d.states)).eraseDups).mergeSort fun a b => (compare a b).isLE

def checkFinals (d : Definition) : Except Error Unit :=
  match d.undeclaredFinals with
  | [] => .ok ()
  | states => .error (.undeclaredFinals states)

/-- The rules with an end that is not declared, each with its position. -/
def undeclaredEnds (d : Definition) : List (Nat × Rule) :=
  (d.rules.zipIdx.filter fun (rule, _) => rule.origin ∉ d.states ∨ rule.destination ∉ d.states).map
    fun (rule, position) => (position, rule)

def checkEnds (d : Definition) : Except Error Unit :=
  match d.undeclaredEnds with
  | [] => .ok ()
  | rules => .error (.undeclaredEnds rules)

/-- The first symbol of a rule that is not in its alphabet: the one read, the one popped, then those
pushed. -/
def foreignSymbolOf (d : Definition) (rule : Rule) : Option (Symbol × Alphabet) :=
  match rule.reads.filter (· ∉ d.inputAlphabet) with
  | some symbol => some (symbol, .input)
  | none => ((rule.pops.toList ++ rule.pushes).find? (· ∉ d.stackAlphabet)).map (·, .stack)

/-- The first symbol that is not in its alphabet: the bottom symbol, then those of the rules. -/
def foreignSymbol (d : Definition) : Option (Symbol × Alphabet) :=
  match d.bottom.filter (· ∉ d.stackAlphabet) with
  | some symbol => some (symbol, .stack)
  | none => d.rules.findSome? d.foreignSymbolOf

def checkSymbols (d : Definition) : Except Error Unit :=
  match d.foreignSymbol with
  | some (symbol, alphabet) => .error (.foreignSymbol symbol alphabet)
  | none => .ok ()

def checks : List (Definition → Except Error Unit) :=
  [checkStates, checkInitial, checkFinals, checkEnds, checkSymbols]

def foundBy (d : Definition) (check : Definition → Except Error Unit) : Option Error :=
  match check d with
  | .ok () => none
  | .error e => some e

/-- What is wrong with a definition: all checks are made, and each names one thing at most. -/
def errors (d : Definition) : List Error := checks.filterMap d.foundBy

/-- Accepts a definition, or names the first thing that is wrong with it. -/
def check (d : Definition) : Except Error Unit :=
  match d.errors with
  | [] => .ok ()
  | first :: _ => .error first

end Pushdown.Definition
