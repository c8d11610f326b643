/-!
# Symbols, states and words

A symbol is one Unicode scalar value, a state is known by its name, and a word is a list of
symbols. In writing, `ε` stands for a missing symbol and for the empty word.
-/

namespace Pushdown

abbrev Symbol := Char

abbrev State := String

abbrev Word := List Symbol

def epsilon : Symbol := 'ε'

def Symbol.orEpsilon (symbol : Option Symbol) : Symbol := symbol.getD epsilon

/-- A word as text; the empty word is written `ε`. -/
def Word.render (word : Word) : String :=
  if word.isEmpty then String.singleton epsilon else String.ofList word

inductive Alphabet where
  | input
  | stack
  deriving DecidableEq, Repr

def Alphabet.label : Alphabet → String
  | .input => "input"
  | .stack => "stack"

end Pushdown
