import Pushdown.Json.Basic

/-!
# Taking JSON values apart

A record is an object that has its fields as members, in any order and among others, or an array of
the fields in their order. A choice is a string that names it, or an object with a single member
that has its name and what comes with it.
-/

namespace Pushdown.Json

def wordMax : Nat := UInt64.size - 1

def string? : Json → Option String
  | .string text => some text
  | _ => none

def word? : Json → Option Nat
  | .natural n => if n ≤ wordMax then some n else none
  | _ => none

def character? : Json → Option Char
  | .string text =>
    match text.toList with
    | [c] => some c
    | _ => none
  | _ => none

def list? {α : Type} (decode : Json → Option α) : Json → Option (List α)
  | .array items => items.mapM decode
  | _ => none

def option? {α : Type} (decode : Json → Option α) : Json → Option (Option α)
  | .null => some none
  | value => (decode value).map some

/-- The value of a member, if there is one of that name; two of one name are refused. -/
def member? (members : List (String × Json)) (name : String) : Option (Option Json) :=
  match members.filter (·.1 = name) with
  | [] => some none
  | [(_, value)] => some (some value)
  | _ => none

/-- The fields of a record in the order of their names. As an array, the record may leave out
fields after the first `least`. -/
def fields? (names : List String) (least : Nat) : Json → Option (List (Option Json))
  | .object members => names.mapM (member? members)
  | .array items =>
    if least ≤ items.length ∧ items.length ≤ names.length then
      some (items.map some ++ List.replicate (names.length - items.length) none)
    else none
  | _ => none

def required {α : Type} (decode : Json → Option α) (field : Option Json) : Option α :=
  field.bind decode

def optional {α : Type} (decode : Json → Option α) (field : Option Json) : Option (Option α) :=
  option? decode (field.getD .null)

def choice? : Json → Option (String × Option Json)
  | .string name => some (name, none)
  | .object [(name, value)] => some (name, some value)
  | _ => none

def comesAlone : Option Json → Bool
  | none | some .null => true
  | _ => false

/-- One of some choices with which nothing comes. -/
def bare? {α : Type} (choices : List (String × α)) (json : Json) : Option α :=
  match json.choice? with
  | some (name, payload) => if comesAlone payload then choices.lookup name else none
  | none => none

end Pushdown.Json
