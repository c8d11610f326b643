import Pushdown.Definition.Check
import Pushdown.Format.Grammar

/-!
# Reading a definition

A definition is read from its text in four steps, each with errors of its own: the text is cut into
sections, no section may be there twice, the sections are put together, and the whole is checked.
-/

namespace Pushdown

namespace Format

/-- The largest text that is read, in bytes. -/
def sizeLimit : Nat := 65536

def sectionsOf (text : List Char) : Except Diagnostic (List (Span × Section)) :=
  match program.parse (.ofText text) with
  | some (sections, _) => .ok sections
  | none =>
    let noted := program.survey (.ofText text) .none
    .error { text, start := noted.position, problem := .expected noted.parts }

def firstRepeated (seen : List Section.Kind) : List (Span × Section) → Option (Span × Section.Kind)
  | [] => none
  | (span, found) :: rest =>
    if found.kind ∈ seen then some (span, found.kind)
    else firstRepeated (found.kind :: seen) rest

def checkRepetition (text : List Char) (sections : List (Span × Section)) :
    Except Diagnostic Unit :=
  match firstRepeated [] sections with
  | some (span, kind) =>
    .error { text, start := span.start, problem := .repeated kind span.stop }
  | none => .ok ()

def require {α : Type} (kind : Section.Kind) (found : Option α) : Except Error α :=
  match found with
  | some value => .ok value
  | none => .error (.missingSection kind)

end Format

namespace Definition

open Format

/-- Puts sections together. The first state is the initial one unless another is named, and the
stack alphabet and the final states are empty unless they are given. -/
def ofSections (sections : List Section) : Except Error Definition := do
  let name ← require .name (sections.findSome? Section.name?)
  let states ← require .states (sections.findSome? Section.states?)
  let inputAlphabet ← require .input (sections.findSome? Section.input?)
  let acceptance ← require .accept (sections.findSome? Section.accept?)
  let rules ← require .rules (sections.findSome? Section.rules?)
  return {
    name
    states
    inputAlphabet
    stackAlphabet := (sections.findSome? Section.stack?).getD []
    initialState := (sections.findSome? Section.initial?).getD (states.headD "")
    finalStates := (sections.findSome? Section.finals?).getD []
    acceptance
    bottom := sections.findSome? Section.bottom?
    rules
  }

/-- Reads a definition from its text. White space at both ends of the text is no part of it. -/
def ofText (text : String) : Except Error Definition := do
  if text.utf8ByteSize > sizeLimit then throw (.tooLarge sizeLimit)
  let body := Text.trim text.toList
  let sections ← (sectionsOf body).mapError .malformed
  (checkRepetition body sections).mapError .malformed
  let definition ← ofSections (sections.map Prod.snd)
  definition.check
  return definition

end Definition

end Pushdown
