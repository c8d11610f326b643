import Pushdown.Symbol

/-!
# Stacks

A stack is its symbols, topmost first, with their number kept beside them: two stacks of different
height are told apart without a look at their symbols. `toList` is the view of a stack, and
`toList_push` and `toList_pop?` say what the operations do to it.
-/

namespace Pushdown

structure Stack where
  /-- The symbols, topmost first. -/
  toList : List Symbol
  height : Nat
  height_eq : height = toList.length := by simp

namespace Stack

/-- Stacks are equal when they hold the same symbols. -/
@[ext] theorem ext {s t : Stack} (h : s.toList = t.toList) : s = t := by
  obtain ⟨xs, n, hn⟩ := s
  obtain ⟨ys, m, hm⟩ := t
  obtain rfl : xs = ys := h
  obtain rfl : n = m := hn.trans hm.symm
  rfl

def sameSymbols : List Symbol → List Symbol → Bool
  | [], [] => true
  | x :: xs, y :: ys => x = y && sameSymbols xs ys
  | _, _ => false

theorem sameSymbols_iff (xs ys : List Symbol) : sameSymbols xs ys = true ↔ xs = ys := by
  induction xs generalizing ys with
  | nil => cases ys <;> simp [sameSymbols]
  | cons x xs ih => cases ys <;> simp [sameSymbols, ih]

instance : DecidableEq Stack := fun s t =>
  if sameHeight : s.height = t.height then
    decidable_of_iff (sameSymbols s.toList t.toList = true)
      ((sameSymbols_iff s.toList t.toList).trans ⟨ext, congrArg toList⟩)
  else
    .isFalse fun same => sameHeight (congrArg height same)

def empty : Stack := { toList := [], height := 0 }

instance : Inhabited Stack := ⟨empty⟩

def isEmpty (s : Stack) : Bool := s.toList.isEmpty

def top (s : Stack) : Option Symbol := s.toList.head?

def pop? (s : Stack) : Option Stack :=
  match s with
  | ⟨[], _, _⟩ => none
  | ⟨_ :: below, n, same⟩ => some ⟨below, n - 1, by simp [same]⟩

def pushOne (s : Stack) (symbol : Symbol) : Stack :=
  { toList := symbol :: s.toList, height := s.height + 1, height_eq := by simp [s.height_eq] }

/-- Puts the symbols of a word on top one after another, so that its last symbol ends topmost. -/
def push (s : Stack) (word : Word) : Stack := word.foldl pushOne s

def ofWord (word : Word) : Stack := empty.push word

/-- The symbols bottom first, in the order in which they were pushed. -/
def toWord (s : Stack) : Word := s.toList.reverse

/-- The symbols top first, or `ε` when there are none. -/
def render (s : Stack) : String := Word.render s.toList

/-- Takes away what a move requires on top: nothing, or exactly the given symbol. -/
def take? (s : Stack) : Option Symbol → Option Stack
  | none => some s
  | some symbol => if s.top = some symbol then s.pop? else none

@[simp] theorem toList_empty : empty.toList = [] := rfl

@[simp] theorem toList_pushOne (s : Stack) (x : Symbol) : (s.pushOne x).toList = x :: s.toList :=
  rfl

@[simp] theorem toList_push (s : Stack) (word : Word) :
    (s.push word).toList = word.reverse ++ s.toList := by
  induction word generalizing s with
  | nil => rfl
  | cons x xs ih => simpa [push] using ih (s.pushOne x)

@[simp] theorem toList_pop? (s : Stack) :
    s.pop?.map toList = if s.toList = [] then none else some s.toList.tail := by
  obtain ⟨xs, n, h⟩ := s
  cases xs <;> rfl

theorem pop?_eq_none {s : Stack} : s.pop? = none ↔ s.toList = [] := by
  obtain ⟨symbols, n, height⟩ := s
  cases symbols <;> simp [pop?]

theorem pop?_eq_some {s below : Stack} :
    s.pop? = some below ↔ ∃ x, s.toList = x :: below.toList := by
  obtain ⟨symbols, n, height⟩ := s
  cases symbols with
  | nil => simp [pop?]
  | cons x rest =>
    simp only [pop?, Option.some.injEq, List.cons.injEq, exists_and_right, exists_eq', true_and]
    exact ⟨fun same => congrArg toList same, fun same => ext same⟩

@[simp] theorem toList_ofWord (word : Word) : (ofWord word).toList = word.reverse := by
  simp [ofWord]

@[simp] theorem height_push (s : Stack) (word : Word) :
    (s.push word).height = s.height + word.length := by
  simp [height_eq, Nat.add_comm]

@[simp] theorem toWord_push (s : Stack) (word : Word) :
    (s.push word).toWord = s.toWord ++ word := by
  simp [toWord]

@[simp] theorem toWord_ofWord (word : Word) : (ofWord word).toWord = word := by simp [toWord]

theorem toWord_inj {s t : Stack} : s.toWord = t.toWord ↔ s = t :=
  ⟨fun same => ext (List.reverse_inj.mp same), congrArg toWord⟩

theorem isEmpty_iff (s : Stack) : s.isEmpty = true ↔ s.toList = [] := by simp [isEmpty]

end Stack

end Pushdown
