/-!
# The sample definitions

The texts of four small automata, one for each way to use the format: acceptance by empty stack, by
final state and by either, a bottom symbol, and a guess that needs backtracking.
-/

namespace Pushdown.Samples

def ofLines (lines : List String) : String := String.join (lines.map (· ++ "\n"))

def balancedParentheses : String :=
  ofLines [
    "# Balanced parentheses, accepted by empty stack.",
    "name: Balanced parentheses",
    "states: q0",
    "input: (, )",
    "stack: X",
    "accept: empty-stack",
    "rules:",
    "  q0, (, ε -> q0, X",
    "  q0, ), X -> q0, ε"]

def equalRuns : String :=
  ofLines [
    "# aⁿbⁿ (n ≥ 0), accepted by final state.",
    "# Z marks the bottom of the stack so leftover a's keep the machine out of q2.",
    "name: a^n b^n",
    "states: q0, q1, q2",
    "input: a, b",
    "stack: X, Z",
    "initial: q0",
    "final: q2",
    "accept: final-state",
    "bottom: Z",
    "rules:",
    "  q0, a, ε -> q0, X",
    "  q0, b, X -> q1, ε",
    "  q1, b, X -> q1, ε",
    "  q0, ε, Z -> q2, ε",
    "  q1, ε, Z -> q2, ε"]

def evenPalindromes : String :=
  ofLines [
    "# Even-length palindromes over \x7ba, b\x7d. The machine guesses the middle of the word.",
    "name: Even palindromes",
    "states: push, match",
    "input: a, b",
    "stack: a, b",
    "accept: empty-stack",
    "rules:",
    "  push, a, ε -> push, a",
    "  push, b, ε -> push, b",
    "  push, ε, ε -> match, ε",
    "  match, a, a -> match, ε",
    "  match, b, b -> match, ε"]

def equalCounts : String :=
  ofLines [
    "# Words with as many a's as b's, in any order.",
    "# The stack holds the surplus of whichever symbol is ahead, above the Z marker.",
    "name: Equal a and b",
    "states: q0, qf",
    "input: a, b",
    "stack: A, B, Z",
    "final: qf",
    "accept: either",
    "bottom: Z",
    "rules:",
    "  q0, a, Z -> q0, ZA",
    "  q0, a, A -> q0, AA",
    "  q0, a, B -> q0, ε",
    "  q0, b, Z -> q0, ZB",
    "  q0, b, B -> q0, BB",
    "  q0, b, A -> q0, ε",
    "  q0, ε, Z -> qf, Z"]

/-- The texts of all samples, in the order in which they are listed. -/
def texts : List String := [balancedParentheses, equalRuns, evenPalindromes, equalCounts]

end Pushdown.Samples
