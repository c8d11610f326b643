import Pushdown.Json.Reader
import Pushdown.Main
import Pushdown.Proofs.Canonical
import Pushdown.Proofs.Decision
import Pushdown.Proofs.Determinism
import Pushdown.Proofs.Faults
import Pushdown.Proofs.Histories
import Pushdown.Proofs.LargerBudgets
import Pushdown.Proofs.Modes
import Pushdown.Proofs.RuleOrder
import Pushdown.Proofs.SearchOrder
import Pushdown.Proofs.Traces
import Pushdown.Samples
import Pushdown.Proofs.Tables
import Pushdown.Proofs.Lookups
import Pushdown.Proofs.Reasons
import Pushdown.Format.Tree
import Pushdown.Format.Walk
import Pushdown.Proofs.Assembly
import Pushdown.Proofs.Measures
import Pushdown.Proofs.Pruning
import Pushdown.Proofs.Samples.Automata
import Pushdown.Proofs.Samples.EqualRuns
import Pushdown.Proofs.Samples.EqualCounts
import Pushdown.Proofs.Samples.BalancedParentheses
import Pushdown.Proofs.Samples.EvenPalindromes
import Pushdown.Proofs.LowerCase
import Pushdown.Proofs.Positions
import Pushdown.Proofs.Samples.Registry
import Pushdown.Proofs.Comments
import Pushdown.Proofs.Json.ReadBack
import Pushdown.Proofs.Keys
import Pushdown.Proofs.CommandLine
import Pushdown.Search.Backtracking
import Pushdown.Proofs.Backtracking
import Pushdown.Proofs.Restoration
import Pushdown.Stack.Linked
import Pushdown.Proofs.SharedStacks
