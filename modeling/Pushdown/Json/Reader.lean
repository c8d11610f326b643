import Pushdown.Json.Basic

/-!
# Reading JSON

`Json.ofText?` reads a text that holds one value and nothing else but blanks. It is strict: control
characters inside strings and superfluous zeros or commas are refused. Half of a surrogate pair is
read, but what holds it has no text.
-/

namespace Pushdown.Json

def isSpace (c : Char) : Bool := c = ' ' || c = '\t' || c = '\n' || c = '\r'

def skipSpaces (text : List Char) : List Char := text.dropWhile isSpace

def hexValue? (c : Char) : Option Nat :=
  if '0' ≤ c ∧ c ≤ '9' then some (c.toNat - '0'.toNat)
  else if 'a' ≤ c ∧ c ≤ 'f' then some (c.toNat - 'a'.toNat + 10)
  else if 'A' ≤ c ∧ c ≤ 'F' then some (c.toNat - 'A'.toNat + 10)
  else none

def unit? (a b c d : Char) : Option Nat := do
  let a ← hexValue? a
  let b ← hexValue? b
  let c ← hexValue? c
  let d ← hexValue? d
  return 0x1000 * a + 0x100 * b + 0x10 * c + d

def unescape? (letter : Char) : Option Char :=
  if letter = '\x22' then some '\x22'
  else if letter = '\\' then some '\\'
  else if letter = '/' then some '/'
  else if letter = 'b' then some '\x08'
  else if letter = 'f' then some '\x0c'
  else if letter = 'n' then some '\n'
  else if letter = 'r' then some '\r'
  else if letter = 't' then some '\t'
  else none

def isHighSurrogate (n : Nat) : Bool := 0xd800 ≤ n && n < 0xdc00

def isLowSurrogate (n : Nat) : Bool := 0xdc00 ≤ n && n < 0xe000

def joinPair (high low : Nat) : Char :=
  Char.ofNat (0x10000 + (high - 0xd800) * 0x400 + (low - 0xdc00))

/-- The text of the code points of a string, given last one first, before the characters `tail`.
There is none if half of a surrogate pair stands alone. -/
def joinPairs (tail : List Char) : List Nat → Option String
  | [] => some (String.ofList tail)
  | point :: rest =>
    if isHighSurrogate point then none
    else if isLowSurrogate point then
      match rest with
      | [] => none
      | high :: rest =>
        if isHighSurrogate high then joinPairs (joinPair high point :: tail) rest else none
    else joinPairs (Char.ofNat point :: tail) rest

/-- The rest of a string after its opening quote, in front of which the code points `found` were
read, last one first. -/
def readString (found : List Nat) : List Char → Option (Option String × List Char)
  | [] => none
  | '\\' :: 'u' :: a :: b :: c :: d :: rest =>
    match unit? a b c d with
    | none => none
    | some point => readString (point :: found) rest
  | '\\' :: letter :: rest =>
    match unescape? letter with
    | none => none
    | some c => readString (c.toNat :: found) rest
  | c :: rest =>
    if c = '\x22' then some (joinPairs [] found, rest)
    else if c.toNat < 0x20 then none
    else readString (c.toNat :: found) rest

def digits (text : List Char) : List Char × List Char := text.span Char.isDigit

def decimal (text : List Char) : Nat := text.foldl (fun n c => 10 * n + (c.toNat - '0'.toNat)) 0

def readFraction : List Char → Option (List Char × List Char)
  | '.' :: rest =>
    match digits rest with
    | ([], _) => none
    | (places, rest) => some ('.' :: places, rest)
  | text => some ([], text)

def readExponent : List Char → Option (List Char × List Char)
  | c :: rest =>
    if c = 'e' ∨ c = 'E' then
      let (sign, rest) := match rest with
        | '+' :: rest => (['+'], rest)
        | '-' :: rest => (['-'], rest)
        | _ => ([], rest)
      match digits rest with
      | ([], _) => none
      | (places, rest) => some (c :: sign ++ places, rest)
    else some ([], c :: rest)
  | [] => some ([], [])

/-- A number. Only digits by themselves are a natural number. -/
def readNumber (text : List Char) : Option (Json × List Char) := do
  let (sign, rest) := match text with
    | '-' :: rest => (['-'], rest)
    | _ => ([], text)
  let (whole, rest) := digits rest
  if whole.isEmpty || (whole.head? = some '0' && whole.length > 1) then none
  let (fraction, rest) ← readFraction rest
  let (exponent, rest) ← readExponent rest
  if sign.isEmpty && fraction.isEmpty && exponent.isEmpty then
    return (.natural (decimal whole), rest)
  else return (.numeral (sign ++ whole ++ fraction ++ exponent), rest)

def readWord (word : String) (value : Json) (text : List Char) : Option (Json × List Char) :=
  if word.toList.isPrefixOf text then some (value, text.drop word.length) else none

def ofString : Option String → Json
  | some text => .string text
  | none => .unpaired

def ofMembers (members : List (Option String × Json)) : Json :=
  match members.mapM fun (name, value) => name.map (·, value) with
  | some members => .object members
  | none => .unpaired

mutual

/-- A value at the head of a text. Each level of nesting, and each item or member, takes one off
`room`. -/
def readValue : (room : Nat) → List Char → Option (Json × List Char)
  | 0, _ => none
  | room + 1, text =>
    match text with
    | [] => none
    | c :: rest =>
      if c = '\x22' then (readString [] rest).map fun (text, rest) => (ofString text, rest)
      else if c = '[' then
        match skipSpaces rest with
        | ']' :: rest => some (.array [], rest)
        | rest => (readItems room rest []).map fun (items, rest) => (.array items, rest)
      else if c = '\x7b' then
        match skipSpaces rest with
        | '\x7d' :: rest => some (.object [], rest)
        | rest => (readMembers room rest []).map fun (members, rest) => (ofMembers members, rest)
      else if c = 'n' then readWord "null" .null text
      else if c = 't' then readWord "true" (.bool true) text
      else if c = 'f' then readWord "false" (.bool false) text
      else readNumber text

/-- The items of an array and its end; `found` are those read before, last item first. -/
def readItems : (room : Nat) → List Char → (found : List Json) → Option (List Json × List Char)
  | 0, _, _ => none
  | room + 1, text, found =>
    match readValue room (skipSpaces text) with
    | none => none
    | some (item, rest) =>
      match skipSpaces rest with
      | ',' :: rest => readItems room rest (item :: found)
      | ']' :: rest => some ((item :: found).reverse, rest)
      | _ => none

def readMembers : (room : Nat) → List Char → (found : List (Option String × Json)) →
    Option (List (Option String × Json) × List Char)
  | 0, _, _ => none
  | room + 1, text, found =>
    match skipSpaces text with
    | '\x22' :: rest =>
      match readString [] rest with
      | none => none
      | some (name, rest) =>
        match skipSpaces rest with
        | ':' :: rest =>
          match readValue room (skipSpaces rest) with
          | none => none
          | some (value, rest) =>
            match skipSpaces rest with
            | ',' :: rest => readMembers room rest ((name, value) :: found)
            | '\x7d' :: rest => some (((name, value) :: found).reverse, rest)
            | _ => none
        | _ => none
    | _ => none

end

/-- The value that a text holds, if it holds one and nothing else. No value takes more than two
off the room for each of its characters. -/
def ofText? (text : String) : Option Json :=
  let text := text.toList
  match readValue (2 * text.length + 1) (skipSpaces text) with
  | some (value, rest) => if (skipSpaces rest).isEmpty then some value else none
  | none => none

end Pushdown.Json
