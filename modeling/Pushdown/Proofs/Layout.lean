import Mathlib.Computability.Language
import Pushdown.Format.Grammar

/-!
# Layouts

The texts that a definition may be written as, as languages over characters. They leave the order of
the sections free, the blanks between tokens, the ends of lines, comments, lines that hold nothing
else, and quotes where a symbol needs none.
-/

namespace Pushdown.Format.Layout

open scoped Computability

def blanks : Language Char := {xs | ∀ c ∈ xs, c = ' ' ∨ c = '\t'}

def comment : Language Char := {xs | ∃ words, xs = '#' :: words ∧ ∀ c ∈ words, isNewline c = false}

def lineRest : Language Char := blanks * (1 + comment)

def lineBreak : Language Char := {['\n'], ['\r'], ['\r', '\n']}

def emptyLines : Language Char := (lineRest * lineBreak)∗

/-- The end of a line that holds tokens, with the empty lines after it. -/
def lineEnds : Language Char := lineRest * lineBreak * emptyLines

def token (text : String) : Language Char := blanks * {text.toList}

def quoted (x : Symbol) : Language Char := {['\x27', x, '\x27']}

/-- A symbol may stand by itself where it means nothing else. -/
def bare (x : Symbol) : Language Char :=
  {xs | xs = [x] ∧ isReserved x = false ∧ Text.isBlank x = false}

def symbol (x : Symbol) : Language Char := blanks * (quoted x + bare x)

def nothing : Language Char := token "ε" + token "_"

def single : Option Symbol → Language Char
  | none => nothing
  | some x => symbol x

def word : Word → Language Char
  | [] => nothing
  | x :: xs => symbol x * (xs.map symbol).prod

def separated {α : Type} (separator : Language Char) (form : α → Language Char) :
    List α → Language Char
  | [] => 1
  | x :: xs => form x * (xs.map fun y => separator * form y).prod

def rule (r : Rule) : Language Char :=
  token r.origin * token "," * single r.reads * token "," * single r.pops * token "->" *
    token r.destination * token "," * word r.pushes

def body : Section → Language Char
  | .name text => token text
  | .states names | .finals names => separated (token ",") token names
  | .input symbols | .stack symbols => separated (token ",") symbol symbols
  | .initial state => token state
  | .accept mode => token mode.label
  | .bottom x => symbol x
  | .rules list => (list.map fun r => lineEnds * rule r).prod

def declaration (s : Section) : Language Char := token (s.kind.keyword ++ ":") * body s

/-- The texts that are made of some sections, in their order. -/
def document (sections : List Section) : Language Char :=
  emptyLines * separated lineEnds declaration sections * (emptyLines * lineRest)

end Pushdown.Format.Layout

namespace Pushdown.Definition

open Format

/-- The sections of a definition, some of which may be left out. -/
def sections (d : Definition) (initial : Option State) (stack : Option (List Symbol))
    (finals : Option (List State)) : List Section :=
  [.name d.name, .states d.states, .input d.inputAlphabet, .accept d.acceptance, .rules d.rules] ++
    (initial.map Section.initial).toList ++ (stack.map Section.stack).toList ++
    (finals.map Section.finals).toList ++ (d.bottom.map Section.bottom).toList

/-- Sections describe a definition in any order. The initial state may be left out where it is the
first one; the stack alphabet and the final states may be left out where there are none. -/
def DescribedBy (d : Definition) (list : List Section) : Prop :=
  ∃ initial stack finals,
    (initial = some d.initialState ∨ initial = none ∧ d.states.head? = some d.initialState) ∧
    (stack = some d.stackAlphabet ∨ stack = none ∧ d.stackAlphabet = []) ∧
    (finals = some d.finalStates ∨ finals = none ∧ d.finalStates = []) ∧
    list.Perm (d.sections initial stack finals)

structure Writable (d : Definition) : Prop where
  name_ne_empty : d.name ≠ ""
  name_trimmed : Text.trim d.name.toList = d.name.toList
  name_characters : ∀ c ∈ d.name.toList, c ≠ '#' ∧ isNewline c = false
  states : ∀ state ∈ d.states, state ≠ "" ∧ ∀ c ∈ state.toList, isStateCharacter c = true
  symbols : ∀ x ∈ d.inputAlphabet ++ d.stackAlphabet, x ≠ '\x27' ∧ isNewline x = false

end Pushdown.Definition
