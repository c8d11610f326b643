import Pushdown.Format.Grammar

/-!
# Parse trees

The grammar once more, without the values: what it makes of a text is a tree of its named parts.
What stands between them, such as keywords, separators and the ends of lines, leaves no trace in the
tree, but for the texts of the parts around it.
-/

namespace Pushdown.Format

/-- A part of the grammar where it was found: it was read from `start` on, up to `stop`. -/
structure Node where
  part : Part
  start : Source
  stop : Source
  children : List Node

namespace Source

/-- What was read on the way to a later position. -/
def upTo (s stop : Source) : List Char := s.rest.take (stop.offset - s.offset)

end Source

namespace Node

def span (node : Node) : Span := ⟨node.start.offset, node.stop.offset⟩

def text (node : Node) : List Char := node.start.upTo node.stop

def textOf (nodes : List Node) : List Char :=
  match nodes.head?, nodes.getLast? with
  | some first, some last => first.start.upTo last.stop
  | _, _ => []

end Node

namespace Pattern

variable {α : Type}

def node (part : Part) (children : α → List Node) (p : Pattern α) : Pattern (List Node) where
  parse s := (p.parse s).map fun (a, stop) => ([⟨part, s, stop, children a⟩], stop)
  survey := p.survey

/-- A node without parts inside, for a pattern that is named already. -/
def leaf (part : Part) (p : Pattern α) : Pattern (List Node) := node part (fun _ => []) p

def branch (part : Part) (inside : Pattern (List Node)) : Pattern (List Node) :=
  named part (node part id inside)

/-- Reads what leaves no node. -/
def silent (p : Pattern α) : Pattern (List Node) := (fun _ => []) <$> p

instance : Append (Pattern (List Node)) where
  append p q := (fun (nodes, others) => nodes ++ others) <$> p.andThen q

def repeated (p : Pattern (List Node)) : Pattern (List Node) := List.flatten <$> p.many

def orNothing (p : Pattern (List Node)) : Pattern (List Node) := (·.getD []) <$> p.optional

end Pattern

namespace Tree

open Pattern

def symbol : Pattern (List Node) := leaf .symbol Format.symbol

def state : Pattern (List Node) := leaf .state Format.state

def text : Pattern (List Node) := leaf .text Format.text

def nothing : Pattern (List Node) := leaf .epsilon Format.nothing

def mode : Pattern (List Node) := leaf .mode Format.mode

def comma : Pattern (List Node) := silent Format.comma

def read : Pattern (List Node) := nothing <|> symbol

def push : Pattern (List Node) := branch .push (nothing <|> symbol ++ symbol.repeated)

def rule : Pattern (List Node) :=
  branch .rule <|
    state ++ comma ++ read ++ comma ++ read ++ silent (literal "->") ++ state ++ comma ++ push

def separated (p : Pattern (List Node)) : Pattern (List Node) := p ++ (comma ++ p).repeated

def body : Section.Kind → Pattern (List Node)
  | .name => text
  | .states => separated state
  | .input | .stack => orNothing (separated symbol)
  | .initial => state
  | .finals => orNothing (separated state)
  | .accept => mode
  | .bottom => symbol
  | .rules => repeated (silent newlines ++ rule)

def declaration (kind : Section.Kind) : Pattern (List Node) :=
  branch (.declaration kind) (silent (literal (kind.keyword ++ ":")) ++ body kind)

def anySection : Pattern (List Node) :=
  declaration .name <|> declaration .states <|> declaration .input <|> declaration .stack <|>
    declaration .initial <|> declaration .finals <|> declaration .accept <|> declaration .bottom <|>
    declaration .rules

def program : Pattern (List Node) :=
  branch .program <|
    silent startOfInput ++ silent newline.many ++
      repeated (anySection ++ silent (newlines <|> endOfInput.lookingAt)) ++
      leaf .endOfInput endOfInput

end Tree

def treeOf (text : List Char) : Except Diagnostic (List Node) :=
  match Tree.program.parse (.ofText text) with
  | some (roots, _) => .ok roots
  | none =>
    let noted := Tree.program.survey (.ofText text) .none
    .error { text, start := noted.position, problem := .expected noted.parts }

end Pushdown.Format
