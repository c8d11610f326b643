import Pushdown.Format.Reading
import Pushdown.Format.Tree

/-!
# Walking a tree

A definition is read off the tree of its text. The walk takes no tree for granted: it has faults of
its own for a text without a tree, for a rule that lacks a part and for a mode that it does not
know.
-/

namespace Pushdown

namespace Format

inductive Fault where
  | noRoot
  | incompleteRule (span : Span)
  | unknownMode (text : List Char) (span : Span)
  | refused (cause : Error)
  deriving DecidableEq, Repr

def Fault.words : Fault → String
  | .noRoot => "Empty definition"
  | .incompleteRule _ => "Incomplete transition rule"
  | .unknownMode text _ => s!"Unsupported acceptance mode: {String.ofList text}"
  | .refused cause => cause.message

/-- The character that a symbol's text shows, with or without quotes. -/
def symbolIn (text : List Char) : Symbol :=
  let unquoted := match text with
    | '\x27' :: rest => if rest.getLast? = some '\x27' then rest.dropLast else text
    | _ => text
  unquoted.headD epsilon

namespace Node

def states (node : Node) : List State :=
  (node.children.filter (·.part = .state)).map fun child => String.ofList child.text

def symbols (node : Node) : List Symbol :=
  (node.children.filter (·.part = .symbol)).map fun child => symbolIn child.text

def mode (node : Node) : Except Fault Acceptance :=
  let text := textOf node.children
  if text = Acceptance.finalState.label.toList then .ok .finalState
  else if text = Acceptance.emptyStack.label.toList then .ok .emptyStack
  else if text = Acceptance.either.label.toList then .ok .either
  else .error (.unknownMode text node.span)

def read (node : Node) : Option Symbol :=
  if node.part = .symbol then some (symbolIn node.text) else none

def next (span : Span) : List Node → Except Fault (Node × List Node)
  | [] => .error (.incompleteRule span)
  | node :: rest => .ok (node, rest)

def rule (node : Node) : Except Fault Rule := do
  let (origin, rest) ← next node.span node.children
  let (reads, rest) ← next node.span rest
  let (pops, rest) ← next node.span rest
  let (destination, rest) ← next node.span rest
  let (pushes, _) ← next node.span rest
  return {
    origin := String.ofList origin.text
    reads := reads.read
    pops := pops.read
    destination := String.ofList destination.text
    pushes := pushes.symbols
  }

def rules (node : Node) : Except Fault (List Rule) :=
  (node.children.filter (·.part = .rule)).mapM rule

def section? (node : Node) : Except Fault (Option Section) :=
  match node.part with
  | .declaration .name => .ok (some (.name (String.ofList (Text.trim (textOf node.children)))))
  | .declaration .states => .ok (some (.states node.states))
  | .declaration .input => .ok (some (.input node.symbols))
  | .declaration .stack => .ok (some (.stack node.symbols))
  | .declaration .initial => .ok (some (.initial (String.ofList (textOf node.children))))
  | .declaration .finals => .ok (some (.finals node.states))
  | .declaration .accept => node.mode.map fun mode => some (.accept mode)
  | .declaration .bottom => .ok (node.symbols.head?.map .bottom)
  | .declaration .rules => node.rules.map fun rules => some (.rules rules)
  | _ => .ok none

/-- The kinds that are declared once a node has been passed, which may not declare one again. -/
def register (text : List Char) (seen : List Section.Kind) (node : Node) :
    Except Fault (List Section.Kind) :=
  match node.part with
  | .declaration kind =>
    if kind ∈ seen then
      .error <| .refused <| .malformed
        { text, start := node.span.start, problem := .repeated kind node.span.stop }
    else .ok (kind :: seen)
  | _ => .ok seen

end Node

/-- The sections among the parts of a text, up to the first that is there again. -/
def gather (text : List Char) (seen : List Section.Kind) : List Node → Except Fault (List Section)
  | [] => .ok []
  | node :: rest => do
    let seen ← node.register text seen
    let found ← node.section?
    let others ← gather text seen rest
    return found.toList ++ others

end Format

namespace Definition

open Format

def ofRoots (text : List Char) (roots : List Node) : Except Fault Definition :=
  match roots with
  | [] => .error .noRoot
  | root :: _ => do
    let sections ← gather text [] root.children
    let definition ← (ofSections sections).mapError .refused
    definition.check.mapError .refused
    return definition

def ofTree (text : String) : Except Fault Definition := do
  if text.utf8ByteSize > sizeLimit then throw (.refused (.tooLarge sizeLimit))
  let body := Text.trim text.toList
  let roots ← (treeOf body).mapError fun diagnostic => .refused (.malformed diagnostic)
  ofRoots body roots

end Definition

end Pushdown
