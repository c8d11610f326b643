import Pushdown.Format.Section
import Pushdown.Format.Source

/-!
# Diagnostics

A diagnostic points at a place in a definition's text, shows the line, and says what is wrong
there. Lines and columns count from one; a line ends with a line feed, and a carriage return is an
ordinary column.
-/

namespace Pushdown.Format

inductive Part where
  | endOfInput
  | program
  | declaration (kind : Section.Kind)
  | rule
  | push
  | mode
  | text
  | state
  | epsilon
  | symbol
  deriving DecidableEq, Repr

def Part.label : Part → String
  | .endOfInput => "EOI"
  | .program => "program"
  | .declaration .finals => "finals"
  | .declaration kind => kind.keyword
  | .rule => "rule"
  | .push => "push"
  | .mode => "mode"
  | .text => "text"
  | .state => "state"
  | .epsilon => "epsilon"
  | .symbol => "symbol"

/-- All parts, in the order in which a message lists them. -/
def Part.all : List Part :=
  [.endOfInput, .program, .declaration .name, .declaration .states, .declaration .input,
    .declaration .stack, .declaration .initial, .declaration .finals, .declaration .accept,
    .declaration .bottom, .declaration .rules, .rule, .push, .mode, .text, .state, .epsilon,
    .symbol]

inductive Problem where
  | expected (parts : List Part)
  /-- The section that starts there, and ends at `stop`, declares again what was declared before. -/
  | repeated (kind : Section.Kind) (stop : Nat)
  deriving DecidableEq, Repr

/-- Alternatives in running text: `a`, `a or b`, `a, b, or c`. -/
def alternatives : List String → String
  | [] => ""
  | [a] => a
  | [a, b] => s!"{a} or {b}"
  | labels => ", ".intercalate labels.dropLast ++ ", or " ++ labels.getLastD ""

def Problem.message : Problem → String
  | .expected parts =>
    s!"expected {alternatives ((Part.all.filter (· ∈ parts)).map Part.label)}"
  | .repeated kind _ => s!"Duplicate \"{kind.keyword}:\" declaration"

structure Diagnostic where
  text : List Char
  start : Nat
  problem : Problem
  deriving DecidableEq, Repr

/-! ### Lines and columns -/

def lineOf (text : List Char) (offset : Nat) : Nat := (text.take offset).count '\n' + 1

def lineBefore (text : List Char) (offset : Nat) : List Char :=
  ((text.take offset).reverse.takeWhile (· ≠ '\n')).reverse

def columnOf (text : List Char) (offset : Nat) : Nat := (lineBefore text offset).length + 1

/-- The line of a position together with the line feed that ends it. -/
def lineAt (text : List Char) (offset : Nat) : List Char :=
  let after := text.drop offset
  lineBefore text offset ++ after.takeWhile (· ≠ '\n') ++ (after.dropWhile (· ≠ '\n')).take 1

/-! ### Rendering -/

def withoutNewlines (line : List Char) : List Char := line.filter (!isNewline ·)

def withVisibleNewlines (line : List Char) : List Char :=
  line.map fun c => if c = '\n' then '␊' else if c = '\r' then '␍' else c

/-- Blanks as wide as the first characters of a line; a tab stays a tab. -/
def indent (line : List Char) (width : Nat) : List Char :=
  (line.take width).map fun c => if c = '\t' then '\t' else ' '

/-- Marks the columns from `first` up to but not including `last` at both ends. -/
def underline (first last : Nat) : List Char :=
  if last - first > 1 then '^' :: List.replicate (last - first - 2) '-' ++ ['^'] else ['^']

namespace Diagnostic

/-- Lines shown with their numbers in a margin of the given width, a mark below the last one, and a
message. -/
def layout (width line column : Nat) (shown : List (String × List Char)) (mark : List Char)
    (message : String) : String :=
  let margin := String.ofList (List.replicate width ' ')
  let body := shown.map fun (number, text) => s!"{number}{String.ofList text}"
  "\n".intercalate <|
    [s!"{margin}--> {line}:{column}", s!"{margin} |"] ++ body ++
      [s!"{margin} | {String.ofList mark}", s!"{margin} |", s!"{margin} = {message}"]

/-- A number at the right end of a field of the given width, with the bar that ends the margin. -/
def gutter (width number : Nat) : String :=
  let digits := toString number
  String.ofList (List.replicate (width - digits.length) ' ') ++ digits ++ " | "

/-- The place, the line or the first and the last line, a mark, and the message. -/
def render (d : Diagnostic) : String :=
  let line := lineOf d.text d.start
  let column := columnOf d.text d.start
  let whole := lineAt d.text d.start
  match d.problem with
  | .expected _ =>
    let width := (toString line).length
    let shown :=
      match d.text[d.start]? with
      | some c => if isNewline c then withVisibleNewlines whole else withoutNewlines whole
      | none => withoutNewlines whole
    layout width line column [(gutter width line, shown)]
      (indent shown (column - 1) ++ ['^', '-', '-', '-']) d.problem.message
  | .repeated _ stop =>
    let lastLine := lineOf d.text stop
    let lastColumn := columnOf d.text stop
    let width := (toString lastLine).length
    let shown := withoutNewlines whole
    let (first, last) :=
      if column > lastColumn then (lastColumn - 1, column + 1) else (column, lastColumn)
    let more :=
      if lineOf d.text (stop - 1) = line then []
      else
        (if lastLine - line > 1 then [(String.ofList (List.replicate width ' '), " | ...".toList)]
          else []) ++ [(gutter width lastLine, withVisibleNewlines (lineAt d.text (stop - 1)))]
    layout width line column ((gutter width line, shown) :: more)
      (indent shown (first - 1) ++ underline first last) d.problem.message

end Diagnostic

end Pushdown.Format
