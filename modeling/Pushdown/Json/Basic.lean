/-!
# JSON values

Numbers are split into natural numbers, which are the only ones that mean anything here, and all
others, which are kept as they were written. Objects keep the order of their members and may name a
member twice. The escapes of JSON can write half of a surrogate pair, which is no character: what
holds one is a value that may be passed over but not looked into.
-/

namespace Pushdown

inductive Json where
  | null
  | bool (value : Bool)
  | natural (value : Nat)
  /-- A number with a sign, a fraction or an exponent, as it was written. -/
  | numeral (literal : List Char)
  | string (text : String)
  | array (items : List Json)
  | object (members : List (String × Json))
  /-- A string with half of a surrogate pair in it, or an object that has such a string for a
  name. -/
  | unpaired
  deriving Inhabited, Repr

namespace Json

def ofOption {α : Type} (encode : α → Json) : Option α → Json
  | none => .null
  | some value => encode value

def ofList {α : Type} (encode : α → Json) (values : List α) : Json := .array (values.map encode)

end Json

end Pushdown
