import Std.Data.HashMap
import Pushdown.Table

/-!
# Indexed tables

An index finds the targets of a key by its hash. It is kept in two parts, and every registration
brings both up to date: the targets of each key, and the keys in the order in which they came
first, which a hash map does not keep.
-/

namespace Pushdown

/-- The hash of a symbol is its scalar value. -/
local instance (priority := high) : Hashable Symbol := instHashableChar

deriving instance Hashable for Transition.Key

namespace Table

structure Index where
  groups : Std.HashMap Transition.Key (List Transition.Target)
  /-- The keys, in the order in which they came first. -/
  order : List Transition.Key

namespace Index

def empty : Index := ⟨∅, []⟩

def insert (index : Index) (transition : Transition) : Index :=
  match index.groups[transition.key]? with
  | some targets =>
    { index with groups := index.groups.insert transition.key (targets ++ [transition.target]) }
  | none =>
    { groups := index.groups.insert transition.key [transition.target]
      order := index.order ++ [transition.key] }

def ofTransitions (registered : List Transition) : Index := registered.foldl insert empty

def get (index : Index) (key : Transition.Key) : List Transition.Target :=
  index.groups[key]?.getD []

def candidates (index : Index) (state : State) (reads top : Option Symbol) : List Transition :=
  let keys : List Transition.Key := (match top with
    | some _ => [⟨state, reads, top⟩]
    | none => []) ++ [⟨state, reads, none⟩]
  (keys.filterMap fun key => index.groups[key]?.map (key, ·)).flatMap fun (key, targets) =>
    targets.map (⟨key, ·⟩)

def lookup (index : Index) (state : State) (next top : Option Symbol) : List Transition :=
  (match next with
    | some _ => index.candidates state next top
    | none => []) ++
  index.candidates state none top

def transitions (index : Index) : List Transition :=
  index.order.flatMap fun key => (index.get key).map (⟨key, ·⟩)

def size (index : Index) : Nat :=
  index.groups.fold (fun total _ targets => total + targets.length) 0

def isEmpty (index : Index) : Bool := index.groups.isEmpty

end Index

end Table

end Pushdown
