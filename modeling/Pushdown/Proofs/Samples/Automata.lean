import Mathlib.Data.List.Basic
import Pushdown.Proofs.Drafts
import Pushdown.Samples
import Pushdown.Stack

/-!
# The sample automata

The four sample texts are definitions, and the definitions are automata. `automaton` asks a registry
that has read nothing yet for a sample by its name, and builds what it gets.
-/

namespace Pushdown

namespace Definition

def balancedParentheses : Definition where
  name := "Balanced parentheses"
  states := ["q0"]
  inputAlphabet := ['(', ')']
  stackAlphabet := ['X']
  initialState := "q0"
  finalStates := []
  acceptance := .emptyStack
  bottom := none
  rules := [⟨"q0", some '(', none, "q0", ['X']⟩, ⟨"q0", some ')', some 'X', "q0", []⟩]

def equalRuns : Definition where
  name := "a^n b^n"
  states := ["q0", "q1", "q2"]
  inputAlphabet := ['a', 'b']
  stackAlphabet := ['X', 'Z']
  initialState := "q0"
  finalStates := ["q2"]
  acceptance := .finalState
  bottom := some 'Z'
  rules := [⟨"q0", some 'a', none, "q0", ['X']⟩, ⟨"q0", some 'b', some 'X', "q1", []⟩,
    ⟨"q1", some 'b', some 'X', "q1", []⟩, ⟨"q0", none, some 'Z', "q2", []⟩,
    ⟨"q1", none, some 'Z', "q2", []⟩]

def evenPalindromes : Definition where
  name := "Even palindromes"
  states := ["push", "match"]
  inputAlphabet := ['a', 'b']
  stackAlphabet := ['a', 'b']
  initialState := "push"
  finalStates := []
  acceptance := .emptyStack
  bottom := none
  rules := [⟨"push", some 'a', none, "push", ['a']⟩, ⟨"push", some 'b', none, "push", ['b']⟩,
    ⟨"push", none, none, "match", []⟩, ⟨"match", some 'a', some 'a', "match", []⟩,
    ⟨"match", some 'b', some 'b', "match", []⟩]

def equalCounts : Definition where
  name := "Equal a and b"
  states := ["q0", "qf"]
  inputAlphabet := ['a', 'b']
  stackAlphabet := ['A', 'B', 'Z']
  initialState := "q0"
  finalStates := ["qf"]
  acceptance := .either
  bottom := some 'Z'
  rules := [⟨"q0", some 'a', some 'Z', "q0", ['Z', 'A']⟩,
    ⟨"q0", some 'a', some 'A', "q0", ['A', 'A']⟩, ⟨"q0", some 'a', some 'B', "q0", []⟩,
    ⟨"q0", some 'b', some 'Z', "q0", ['Z', 'B']⟩, ⟨"q0", some 'b', some 'B', "q0", ['B', 'B']⟩,
    ⟨"q0", some 'b', some 'A', "q0", []⟩, ⟨"q0", none, some 'Z', "qf", ['Z']⟩]

end Definition

namespace Samples

theorem toList_ofLines (lines : List String) :
    (ofLines lines).toList = lines.flatMap fun line => line.toList ++ ['\n'] := by
  simp [ofLines, String.toList_join, List.flatMap_map]

/-! ### What the texts say

The reader is evaluated on the characters of a text. They are taken line by line from the literals,
since to evaluate `toList` means to decode bytes. -/

theorem ofText_balancedParentheses :
    (Definition.ofText balancedParentheses).toOption = some .balancedParentheses := by
  unfold Definition.ofText balancedParentheses
  simp only [toList_ofLines, List.flatMap_cons, List.flatMap_nil]
  repeat rw [String.toList_ofList]
  decide +kernel

theorem ofText_equalRuns : (Definition.ofText equalRuns).toOption = some .equalRuns := by
  unfold Definition.ofText equalRuns
  simp only [toList_ofLines, List.flatMap_cons, List.flatMap_nil]
  repeat rw [String.toList_ofList]
  decide +kernel

theorem ofText_evenPalindromes :
    (Definition.ofText evenPalindromes).toOption = some .evenPalindromes := by
  unfold Definition.ofText evenPalindromes
  simp only [toList_ofLines, List.flatMap_cons, List.flatMap_nil]
  repeat rw [String.toList_ofList]
  decide +kernel

theorem ofText_equalCounts : (Definition.ofText equalCounts).toOption = some .equalCounts := by
  unfold Definition.ofText equalCounts
  simp only [toList_ofLines, List.flatMap_cons, List.flatMap_nil]
  repeat rw [String.toList_ofList]
  decide +kernel

theorem definitions_eq :
    definitions = [.balancedParentheses, .equalRuns, .evenPalindromes, .equalCounts] := by
  simp [definitions, texts, ofText_balancedParentheses, ofText_equalRuns, ofText_evenPalindromes,
    ofText_equalCounts]

/-! ### A sample by its name

What the registry has to do with it is kept apart from what the four definitions are, so that
neither has the texts read again. -/

def pick (name : String) (all : List Definition) : Except Error Definition :=
  (all.find? (·.name = name)).elim (.error (.noSampleNamed name)) .ok

theorem withName_eq (name : String) : withName name = pick name <$> load := by
  unfold withName
  generalize load = query
  rw [map_eq_pure_bind]
  congr 1
  funext all
  unfold pick
  cases all.find? (·.name = name) <;> rfl

theorem run_load : load.run .empty = pure (definitions, ⟨definitions⟩) := by
  unfold load
  generalize definitions = all
  rfl

/-- The automaton that the sample with a name describes, from a registry that has read nothing. -/
def automaton (name : String) : Except Error Automaton :=
  ((withName name).run .empty).run.1.bind Automaton.ofDefinition

theorem automaton_eq (name : String) :
    automaton name = (pick name [.balancedParentheses, .equalRuns, .evenPalindromes,
      .equalCounts]).bind Automaton.ofDefinition := by
  unfold automaton
  rw [withName_eq, StateT.run_map, run_load, definitions_eq]
  rfl

end Samples

namespace Automaton

def balancedParentheses : Automaton where
  name := "Balanced parentheses"
  states := ["q0"]
  inputAlphabet := ['(', ')']
  initialState := "q0"
  finalStates := []
  acceptance := .emptyStack
  bottom := none
  table := ⟨[(⟨"q0", some '(', none⟩, [⟨"q0", ['X']⟩]), (⟨"q0", some ')', some 'X'⟩, [⟨"q0", []⟩])]⟩

def equalRuns : Automaton where
  name := "a^n b^n"
  states := ["q0", "q1", "q2"]
  inputAlphabet := ['a', 'b']
  initialState := "q0"
  finalStates := ["q2"]
  acceptance := .finalState
  bottom := some 'Z'
  table := ⟨[(⟨"q0", some 'a', none⟩, [⟨"q0", ['X']⟩]), (⟨"q0", some 'b', some 'X'⟩, [⟨"q1", []⟩]),
    (⟨"q1", some 'b', some 'X'⟩, [⟨"q1", []⟩]), (⟨"q0", none, some 'Z'⟩, [⟨"q2", []⟩]),
    (⟨"q1", none, some 'Z'⟩, [⟨"q2", []⟩])]⟩

def evenPalindromes : Automaton where
  name := "Even palindromes"
  states := ["push", "match"]
  inputAlphabet := ['a', 'b']
  initialState := "push"
  finalStates := []
  acceptance := .emptyStack
  bottom := none
  table := ⟨[(⟨"push", some 'a', none⟩, [⟨"push", ['a']⟩]),
    (⟨"push", some 'b', none⟩, [⟨"push", ['b']⟩]), (⟨"push", none, none⟩, [⟨"match", []⟩]),
    (⟨"match", some 'a', some 'a'⟩, [⟨"match", []⟩]),
    (⟨"match", some 'b', some 'b'⟩, [⟨"match", []⟩])]⟩

def equalCounts : Automaton where
  name := "Equal a and b"
  states := ["q0", "qf"]
  inputAlphabet := ['a', 'b']
  initialState := "q0"
  finalStates := ["qf"]
  acceptance := .either
  bottom := some 'Z'
  table := ⟨[(⟨"q0", some 'a', some 'Z'⟩, [⟨"q0", ['Z', 'A']⟩]),
    (⟨"q0", some 'a', some 'A'⟩, [⟨"q0", ['A', 'A']⟩]), (⟨"q0", some 'a', some 'B'⟩, [⟨"q0", []⟩]),
    (⟨"q0", some 'b', some 'Z'⟩, [⟨"q0", ['Z', 'B']⟩]),
    (⟨"q0", some 'b', some 'B'⟩, [⟨"q0", ['B', 'B']⟩]), (⟨"q0", some 'b', some 'A'⟩, [⟨"q0", []⟩]),
    (⟨"q0", none, some 'Z'⟩, [⟨"qf", ['Z']⟩])]⟩

theorem ofDefinition_balancedParentheses :
    ofDefinition .balancedParentheses = .ok .balancedParentheses := rfl

theorem ofDefinition_equalRuns : ofDefinition .equalRuns = .ok .equalRuns := rfl

theorem ofDefinition_evenPalindromes : ofDefinition .evenPalindromes = .ok .evenPalindromes := rfl

theorem ofDefinition_equalCounts : ofDefinition .equalCounts = .ok .equalCounts := rfl

end Automaton

namespace Samples

theorem automaton_balancedParentheses :
    automaton "Balanced parentheses" = .ok .balancedParentheses := by
  rw [automaton_eq]
  rfl

theorem automaton_equalRuns : automaton "a^n b^n" = .ok .equalRuns := by
  rw [automaton_eq]
  rfl

theorem automaton_evenPalindromes : automaton "Even palindromes" = .ok .evenPalindromes := by
  rw [automaton_eq]
  rfl

theorem automaton_equalCounts : automaton "Equal a and b" = .ok .equalCounts := by
  rw [automaton_eq]
  rfl

/-! ### Counters

Two of the automata count on their stacks, above the marker that these start with. -/

def counter (x : Symbol) : Nat → Stack
  | 0 => .ofWord ['Z']
  | n + 1 => (counter x n).push [x]

variable {x y : Symbol} {n : Nat} {below : Stack}

theorem counter_ne_empty : (counter x n).toList ≠ [] := by
  cases n <;> simp [counter]

theorem eq_counter_of_push (symbol : y ≠ 'Z') (same : below.push [y] = counter x n) :
    y = x ∧ ∃ k, n = k + 1 ∧ below = counter x k := by
  have symbols := congrArg Stack.toList same
  cases n with
  | zero =>
    obtain ⟨top, -⟩ : y = 'Z' ∧ below.toList = [] := by simpa [counter] using symbols
    exact absurd top symbol
  | succ k =>
    obtain ⟨top, rest⟩ : y = x ∧ below.toList = (counter x k).toList := by
      simpa [counter] using symbols
    exact ⟨top, k, rfl, Stack.ext rest⟩

theorem eq_zero_of_push_marker (symbol : x ≠ 'Z') (same : below.push ['Z'] = counter x n) :
    n = 0 := by
  have symbols := congrArg Stack.toList same
  cases n with
  | zero => rfl
  | succ k =>
    obtain ⟨top, -⟩ : 'Z' = x ∧ below.toList = (counter x k).toList := by
      simpa [counter] using symbols
    exact absurd top.symm symbol

end Samples

end Pushdown
