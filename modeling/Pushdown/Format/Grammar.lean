import Pushdown.Format.Pattern
import Pushdown.Text.Blank

/-!
# The grammar of definitions

A definition is a series of sections, one or more lines each. Apart from rules, a section is one
line: a keyword and what it declares.

    name: Balanced parentheses
    states: q0
    input: (, )
    stack: X
    accept: empty-stack
    rules:
      q0, (, ε -> q0, X
      q0, ), X -> q0, ε

A rule gives a state, the symbol read and the symbol popped, and after the arrow the state entered
and the symbols pushed. Both `ε` and `_` stand for nothing. A character that means something in the
grammar is a symbol only between quotes.
-/

namespace Pushdown.Format

open Pattern

/-- The characters that stand for a symbol only between quotes. -/
def isReserved (c : Char) : Bool :=
  c = epsilon || c = '_' || c = ',' || c = '\x27' || c = '#' || c = ' ' || c = '\t' || isNewline c

/-- Reads a symbol, which stands by itself or between quotes. -/
def readSymbol (s : Source) : Option (Symbol × Source) :=
  match s.rest with
  | '\x27' :: c :: '\x27' :: _ =>
    if c = '\x27' || isNewline c then none else some (c, s.drop 3)
  | c :: _ => if isReserved c then none else some (c, s.drop 1)
  | [] => none

def isStateCharacter (c : Char) : Bool := c.isAlphanum || c = '_'

def symbol : Pattern Symbol := named .symbol (scan readSymbol)

def state : Pattern State := named .state (String.ofList <$> characters isStateCharacter)

/-- The rest of a line up to a comment. -/
def text : Pattern (List Char) := named .text (characters fun c => !isNewline c && c ≠ '#')

def nothing : Pattern Unit := named .epsilon (literal "ε" <|> literal "_")

def comma : Pattern Unit := literal ","

def mode : Pattern Acceptance :=
  named .mode <|
    (fun _ => .finalState) <$> literal Acceptance.finalState.label <|>
    (fun _ => .emptyStack) <$> literal Acceptance.emptyStack.label <|>
    (fun _ => .either) <$> literal Acceptance.either.label

def read : Pattern (Option Symbol) := (fun _ => none) <$> nothing <|> some <$> symbol

def push : Pattern Word := named .push ((fun _ => []) <$> nothing <|> symbol.many1)

def rule : Pattern Rule :=
  named .rule <|
    Rule.mk <$> state <* comma <*> read <* comma <*> read <* literal "->" <*> state <* comma <*>
      push

def states : Pattern (List State) := state.separatedBy comma

def symbols : Pattern (List Symbol) := (·.getD []) <$> (symbol.separatedBy comma).optional

/-- The ends of one line or more, so that blank lines and comment lines are passed over. -/
def newlines : Pattern Unit := (fun _ => ()) <$> newline.many1

def declaration (kind : Section.Kind) (body : Pattern Section) : Pattern Section :=
  named (.declaration kind) (literal (kind.keyword ++ ":") *> body)

def anySection : Pattern Section :=
  declaration .name ((fun found => .name (String.ofList (Text.trim found))) <$> text) <|>
  declaration .states (.states <$> states) <|>
  declaration .input (.input <$> symbols) <|>
  declaration .stack (.stack <$> symbols) <|>
  declaration .initial (.initial <$> state) <|>
  declaration .finals ((fun found => .finals (found.getD [])) <$> states.optional) <|>
  declaration .accept (.accept <$> mode) <|>
  declaration .bottom (.bottom <$> symbol) <|>
  declaration .rules (.rules <$> (newlines *> rule).many)

/-- A whole text: sections, each ended by the end of a line or of the text. -/
def program : Pattern (List (Span × Section)) :=
  named .program <|
    startOfInput *> newline.many *>
      (anySection.located <* (newlines <|> endOfInput.lookingAt)).many <* endOfInput

end Pushdown.Format
