import Pushdown.Json.Basic

/-!
# Writing JSON

A value is written without blanks by `render`, and over several lines by `renderPretty`. The
functions that do the work put the text of a value in front of a text that is already there.
-/

namespace Pushdown.Json

def hexDigit (n : Nat) : Char := Nat.digitChar n

def escape (c : Char) : List Char :=
  if c = '\x22' then ['\\', '\x22']
  else if c = '\\' then ['\\', '\\']
  else if c = '\x08' then ['\\', 'b']
  else if c = '\t' then ['\\', 't']
  else if c = '\n' then ['\\', 'n']
  else if c = '\x0c' then ['\\', 'f']
  else if c = '\r' then ['\\', 'r']
  else if c.toNat < 0x20 then
    ['\\', 'u', '0', '0', hexDigit (c.toNat / 16), hexDigit (c.toNat % 16)]
  else [c]

def putString (text : String) (tail : List Char) : List Char :=
  '\x22' :: text.toList.flatMap escape ++ '\x22' :: tail

def putNatural (n : Nat) (tail : List Char) : List Char := Nat.toDigits 10 n ++ tail

/-- A value that holds no other values, or an empty one, before a text. -/
def putScalar : Json → List Char → List Char
  | .null, tail => "null".toList ++ tail
  | .bool true, tail => "true".toList ++ tail
  | .bool false, tail => "false".toList ++ tail
  | .natural n, tail => putNatural n tail
  | .numeral literal, tail => literal ++ tail
  | .string text, tail => putString text tail
  | .array _, tail => '[' :: ']' :: tail
  | .object _, tail => '\x7b' :: '\x7d' :: tail
  | .unpaired, tail => '\x22' :: '\\' :: "ud800".toList ++ '\x22' :: tail

mutual

def put : Json → List Char → List Char
  | .array (first :: rest), tail => '[' :: put first (putItems rest tail)
  | .object ((name, first) :: rest), tail =>
    '\x7b' :: putString name (':' :: put first (putMembers rest tail))
  | value, tail => putScalar value tail

/-- The items of an array after the first, and its end, before a text. -/
def putItems : List Json → List Char → List Char
  | [], tail => ']' :: tail
  | item :: rest, tail => ',' :: put item (putItems rest tail)

def putMembers : List (String × Json) → List Char → List Char
  | [], tail => '\x7d' :: tail
  | (name, value) :: rest, tail =>
    ',' :: putString name (':' :: put value (putMembers rest tail))

end

def render (value : Json) : String := String.ofList (put value [])

def putLine (level : Nat) (tail : List Char) : List Char :=
  '\n' :: List.replicate (2 * level) ' ' ++ tail

mutual

/-- A value at a level of nesting over several lines, before a text. -/
def putPretty (level : Nat) : Json → List Char → List Char
  | .array (first :: rest), tail =>
    '[' :: putLine (level + 1) (putPretty (level + 1) first (putPrettyItems level rest tail))
  | .object ((name, first) :: rest), tail =>
    '\x7b' :: putLine (level + 1) (putString name
      (':' :: ' ' :: putPretty (level + 1) first (putPrettyMembers level rest tail)))
  | value, tail => putScalar value tail

def putPrettyItems (level : Nat) : List Json → List Char → List Char
  | [], tail => putLine level (']' :: tail)
  | item :: rest, tail =>
    ',' :: putLine (level + 1) (putPretty (level + 1) item (putPrettyItems level rest tail))

def putPrettyMembers (level : Nat) : List (String × Json) → List Char → List Char
  | [], tail => putLine level ('\x7d' :: tail)
  | (name, value) :: rest, tail =>
    ',' :: putLine (level + 1) (putString name
      (':' :: ' ' :: putPretty (level + 1) value (putPrettyMembers level rest tail)))

end

/-- The text of a value over several lines, with two blanks for each level of nesting. -/
def renderPretty (value : Json) : String := String.ofList (putPretty 0 value [])

end Pushdown.Json
