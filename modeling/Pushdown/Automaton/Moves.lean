import Pushdown.Automaton
import Pushdown.Trace
import Pushdown.Verdict

/-!
# Moves

What an automaton can do in a configuration: where it starts, which steps lead on from there and in
which order they are tried, and what it makes of a configuration it stops in.
-/

namespace Pushdown.Automaton

def initialConfiguration (a : Automaton) : Configuration :=
  { state := a.initialState, cursor := 0, stack := .ofWord a.bottom.toList }

/-- The transitions tried from a configuration, in order: those that read the next symbol, then
those that read nothing. A symbol outside the input alphabet is not read. -/
def candidates (a : Automaton) (word : Word) (c : Configuration) : List Transition :=
  (match word[c.cursor]? with
    | some symbol =>
      if a.readsSymbol symbol then a.table.candidates c.state (some symbol) c.stack.top else []
    | none => []) ++
  a.table.candidates c.state none c.stack.top

def moves (a : Automaton) (word : Word) (c : Configuration) : List Step :=
  (a.candidates word c).filterMap fun t => (t.fire? c).map (⟨·, some t⟩)

/-- What a configuration is accepted by, if it is; the input is taken to be used up. -/
def evaluate (a : Automaton) (c : Configuration) : Option Criterion :=
  a.acceptance.judge (a.isFinal c.state) c.stack.isEmpty

/-- What a configuration is accepted by, if the word is used up in it and it is. -/
def accepts? (a : Automaton) (word : Word) (c : Configuration) : Option Criterion :=
  if c.cursor = word.length then a.evaluate c else none

/-- Why a path is not accepted that ends in a configuration, on an input of the given length;
`hadMoves` says whether any move was possible there. -/
def diagnose (a : Automaton) (c : Configuration) (inputLength : Nat) (hadMoves : Bool) :
    RejectReason :=
  if c.cursor < inputLength then
    if hadMoves then .circling c.cursor else .stuck c.cursor
  else
    match a.acceptance with
    | .emptyStack => .stackLeft
    | .finalState | .either => .notFinal

end Pushdown.Automaton
