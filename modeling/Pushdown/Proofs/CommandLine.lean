import Pushdown.CommandLine
import Pushdown.Proofs.Directories
import Pushdown.Proofs.Pruning
import Pushdown.Proofs.Samples.Automata

/-!
# The command line

Arguments that are written out for words and flags are read as these, and a limit that is left out
is the standard one. What the command does with one word is what it would do with that word alone:
it appends a report to what is printed and takes note of the verdict. So it is settled, one word at
a time, by the definition and the limits.
-/

namespace Pushdown

/-- Without a timeout, a run does not see the clock. -/
theorem Automaton.run_untimed {budget : Budget} (untimed : budget.timeout = none) (a : Automaton)
    (word : Word) (clock clock' : Clock) : a.run word budget clock' = a.run word budget clock := by
  have alike : a.Alike a word fun _ => True :=
    { initialConfiguration := rfl
      acceptance := rfl
      begins := trivial
      isFinal := fun _ _ => rfl
      moves := fun _ _ => rfl
      keeps := fun _ _ _ _ => trivial }
  apply alike.run_eq
  funext n
  rw [Search.isSpent_untimed untimed, Search.isSpent_untimed untimed]

namespace CommandLine

/-! ### Options as arguments -/

namespace Switch

variable {switch : Switch} {value : String}

/-- An option as one argument: two dashes and its name, and its value after an equals sign. -/
def write (switch : Switch) (value : String) : String :=
  "--" ++ switch.long ++ if switch.takesValue then "=" ++ value else ""

theorem find?_long (switch : Switch) : all.find? (·.long = switch.long) = some switch := by
  cases switch <;> rfl

theorem toList_long_ne (switch : Switch) : ∀ c ∈ switch.long.toList, (c ≠ '=' : Bool) = true :=
  List.all_eq_true.mp (by cases switch <;> rfl)

theorem toList_write (switch : Switch) (value : String) :
    (switch.write value).toList = '-' :: '-' ::
      (switch.long.toList ++ if switch.takesValue then '=' :: value.toList else []) := by
  unfold write
  split <;> simp

theorem readLong_write (settings : List (Switch × String)) (fits : switch.takesValue ∨ value = "") :
    readLong settings
        (switch.long.toList ++ if switch.takesValue then '=' :: value.toList else []) =
      .ok { settings := settings ++ [(switch, value)] } := by
  have noEquals := switch.toList_long_ne
  unfold readLong
  cases takes : switch.takesValue with
  | true =>
    simp only [if_true, List.takeWhile_append_of_pos noEquals,
      List.dropWhile_append_of_pos noEquals]
    simp [find?_long, takes]
  | false =>
    obtain rfl : value = "" := fits.resolve_left (by simp [takes])
    simp only [Bool.false_eq_true, if_false, List.takeWhile_append_of_pos noEquals,
      List.dropWhile_append_of_pos noEquals]
    simp [find?_long, takes]

theorem read_write (settings : List (Switch × String)) (fits : switch.takesValue ∨ value = "") :
    Given.read { settings } (switch.write value) =
      .ok { settings := settings ++ [(switch, value)] } := by
  have long : switch.long.toList ≠ [] := by cases switch <;> decide
  rw [Given.read, toList_write, ← readLong_write settings fits]
  cases name : switch.long.toList with
  | nil => exact absurd name long
  | cons c rest => rfl

end Switch

theorem foldlM_write {settings : List (Switch × String)}
    (fits : ∀ setting ∈ settings, setting.1.takesValue ∨ setting.2 = "")
    (before : List (Switch × String)) :
    (settings.map fun setting => setting.1.write setting.2).foldlM Given.read
        { settings := before } = .ok { settings := before ++ settings } := by
  induction settings generalizing before with
  | nil => rw [List.append_nil]; rfl
  | cons setting rest ih =>
    obtain ⟨first, rest_fit⟩ := List.forall_mem_cons.mp fits
    rw [List.map_cons, List.foldlM_cons, Switch.read_write before first]
    show List.foldlM Given.read _ _ = _
    rw [ih rest_fit, List.append_assoc, List.singleton_append]

theorem number?_toString {n : Nat} (fits : n < UInt64.size) : number? (toString n) = some n := by
  have letters : (toString n).toList = Nat.toDigits 10 n := Nat.toList_repr
  have digits : ∀ c ∈ Nat.toDigits 10 n, c.isDigit = true :=
    fun c member => Nat.isDigit_of_mem_toDigits (by decide) (by decide) member
  have value : (Nat.toDigits 10 n).foldl (fun n c => 10 * n + (c.toNat - '0'.toNat)) 0 = n :=
    Nat.ofDigitChars_toDigits (by decide) (by decide)
  have unsigned : dropPlus (Nat.toDigits 10 n) = Nat.toDigits 10 n := by
    unfold dropPlus
    split
    · next rest plus =>
      have sign := digits '+' (plus ▸ List.mem_cons_self)
      exact absurd sign (by decide)
    · rfl
  have formed : ((Nat.toDigits 10 n).isEmpty || (Nat.toDigits 10 n).any (!·.isDigit)) = false := by
    simpa using digits
  rw [number?, letters, unsigned]
  dsimp only
  rw [formed, value, if_neg Bool.false_ne_true, if_pos fits]

/-! ### Flags as arguments -/

/-- What may stand beside the program and the words. A limit that is left out is the standard
one. -/
structure Flags where
  debug : Bool := false
  json : Bool := false
  maxSteps : Option UInt64 := none
  maxDepth : Option UInt64 := none

namespace Flags

def budget (flags : Flags) : Budget where
  maxSteps := flags.maxSteps.elim Budget.standard.maxSteps UInt64.toNat
  maxDepth := flags.maxDepth.elim Budget.standard.maxDepth UInt64.toNat
  timeout := none

def options (flags : Flags) (program : String) (inputs : List String) : Options :=
  { program, inputs, debug := flags.debug, json := flags.json, budget := flags.budget }

def settings (flags : Flags) (program : String) (inputs : List String) : List (Switch × String) :=
  [(.program, program)] ++ inputs.map (Switch.input, ·) ++
    (if flags.debug then [(.debug, "")] else []) ++
    (if flags.json then [(.json, "")] else []) ++
    flags.maxSteps.toList.map (fun n => (Switch.maxSteps, toString n.toNat)) ++
    flags.maxDepth.toList.map (fun n => (Switch.maxDepth, toString n.toNat))

/-- The arguments that name the program and each word and flag, and nothing that is left out. -/
def arguments (flags : Flags) (program : String) (inputs : List String) : List String :=
  (flags.settings program inputs).map fun setting => setting.1.write setting.2

variable (flags : Flags) (program : String) (inputs : List String)

theorem filter_settings (switch : Switch) :
    (flags.settings program inputs).filter (·.1 = switch) =
      match switch with
      | .program => [(.program, program)]
      | .input => inputs.map (Switch.input, ·)
      | .debug => if flags.debug then [(.debug, "")] else []
      | .json => if flags.json then [(.json, "")] else []
      | .maxSteps => flags.maxSteps.toList.map fun n => (Switch.maxSteps, toString n.toNat)
      | .maxDepth => flags.maxDepth.toList.map fun n => (Switch.maxDepth, toString n.toNat) := by
  have of_one {α : Type} (one : Switch) (value : α → String) (given : List α) :
      (given.map fun a => (one, value a)).filter (·.1 = switch) =
        if switch = one then given.map fun a => (one, value a) else [] := by
    split
    · next same => simp [same]
    · next other => simp [List.filter_eq_nil_iff, Ne.symm other]
  simp only [settings, List.filter_append, of_one]
  cases flags.debug <;> cases flags.json <;> cases switch <;> simp

theorem settings_fit : ∀ setting ∈ flags.settings program inputs,
    setting.1.takesValue ∨ setting.2 = "" := by
  rintro ⟨switch, value⟩ member
  have listed : (switch, value) ∈ (flags.settings program inputs).filter (·.1 = switch) :=
    List.mem_filter.mpr ⟨member, decide_eq_true rfl⟩
  rw [filter_settings] at listed
  cases switch with
  | program | input | maxSteps | maxDepth => exact Or.inl rfl
  | debug | json =>
    dsimp only at listed
    split at listed
    · exact Or.inr (Prod.mk.inj (List.mem_singleton.mp listed)).2
    · cases listed

section Single

variable {settings : List (Switch × String)} {switch : Switch}

theorem flag_of_filter {on : Bool}
    (written : settings.filter (·.1 = switch) = if on then [(switch, "")] else []) :
    Options.single settings switch = .ok (if on then some "" else none) := by
  rw [Options.single, written]
  cases on <;> rfl

theorem limit_of_filter {given : Option UInt64}
    (written : settings.filter (·.1 = switch) =
      given.toList.map fun n => (switch, toString n.toNat)) (otherwise : Nat) :
    Options.limit settings switch otherwise = .ok (given.elim otherwise UInt64.toNat) := by
  rw [Options.limit, Options.single, written]
  cases given with
  | none => rfl
  | some n =>
    simp only [Option.toList_some, List.map_singleton, bind, Except.bind,
      number?_toString n.toNat_lt]
    rfl

end Single

theorem ofArguments_arguments :
    Options.ofArguments (flags.arguments program inputs) = .ok (flags.options program inputs) := by
  rw [Options.ofArguments, arguments, foldlM_write (flags.settings_fit program inputs) []]
  have given := flags.filter_settings program inputs
  generalize flags.settings program inputs = settings at given ⊢
  have named : Options.single settings .program = .ok (some program) := by
    rw [Options.single, given]
  have words : (settings.filter (·.1 = .input)).map (·.2) = inputs := by
    rw [given]
    simp
  simp only [List.nil_append, bind, Except.bind, named, words, flag_of_filter (given .debug),
    flag_of_filter (given .json), limit_of_filter (given .maxSteps),
    limit_of_filter (given .maxDepth)]
  obtain ⟨traced, asJson, _, _⟩ := flags
  cases traced <;> cases asJson <;> rfl

end Flags

/-! ### One word after another -/

namespace Options

/-- What is printed for a word, and whether it is accepted, do not depend on the words before. -/
theorem foldl_proceed (options : Options) (automaton : Automaton) (sofar : Printed)
    (inputs : List String) :
    inputs.foldl (options.proceed automaton) sofar =
      { text := sofar.text ++ String.join (inputs.map fun input =>
          options.report input (automaton.run input.toList options.budget .still))
        allAccepted := sofar.allAccepted && inputs.all fun input =>
          (automaton.run input.toList options.budget .still).verdict.isAccepted } := by
  induction inputs generalizing sofar with
  | nil => simp
  | cons input rest ih =>
    rw [List.foldl_cons, ih]
    simp [proceed, String.append_assoc, Bool.and_assoc]

end Options

theorem Flags.run_arguments (flags : Flags) (program : String) (system : FileSystem)
    (words : List String) : run system (flags.arguments program words) =
      (flags.options program words).respond (system.loadDefinition program) := by
  rw [run, ofArguments_arguments]
  rfl

theorem respond_of_built {options : Options} {definition : Except Error Definition}
    {automaton : Automaton} (built : definition.bind Automaton.ofDefinition = .ok automaton) :
    options.respond definition =
      { code := if options.words.all fun input =>
            (automaton.run input.toList options.budget .still).verdict.isAccepted then 0 else 1
        stdout := String.join (options.words.map fun input =>
          options.report input (automaton.run input.toList options.budget .still))
        stderr := "" } := by
  rw [Options.respond, built]
  simp [Options.foldl_proceed]

/-- One word that is not accepted is enough for the larger code. -/
theorem code_and (first second : Bool) :
    (if first && second then 0 else 1) =
      max (if first then 0 else 1) (if second then 0 else 1) := by
  cases first with
  | true => cases second <;> rfl
  | false => cases second <;> rfl

end CommandLine

open CommandLine FileSystem

/-- The command does with several words what it does with each of them alone, whatever flags stand
beside them. If the program is a file that an automaton can be built from, the command prints for
some words and others what it prints for the first and then what it prints for the second, and ends
with the larger of the two codes; the code is 0 if all words are accepted within the limits of the
flags and 1 if not; no words are as good as the empty word. If there is no automaton, the answer to
all words is the same error. -/
theorem command_over_words (flags : Flags) (program : String) (system : FileSystem) :
    let command words := run system (flags.arguments program words)
    (∀ automaton,
      (system.loadDefinition program).bind Automaton.ofDefinition = .ok automaton →
      (∀ xs ys, xs ≠ [] → ys ≠ [] →
        (command (xs ++ ys)).stdout = (command xs).stdout ++ (command ys).stdout ∧
        (command (xs ++ ys)).code = max (command xs).code (command ys).code) ∧
      (∀ words, words ≠ [] → ∀ clock, (command words).code =
        if ∀ word ∈ words, (automaton.run word.toList flags.budget clock).verdict.isAccepted
        then 0 else 1) ∧
      (∀ words, (command words).stderr = "") ∧
      command [] = command [""]) ∧
    ∀ e, (system.loadDefinition program).bind Automaton.ofDefinition = .error e →
      ∀ words, command words = ⟨2, "", s!"Error: {e.message}\n"⟩ := by
  intro command
  have responds : ∀ words, command words =
      (flags.options program words).respond (system.loadDefinition program) :=
    flags.run_arguments program system
  refine ⟨?_, ?_⟩
  · intro automaton built
    have given : ∀ words, words ≠ [] → (flags.options program words).words = words := by
      intro words some
      exact if_neg (by simpa [Flags.options] using some)
    simp only [responds, respond_of_built built]
    refine ⟨?_, ?_, fun _ => trivial, rfl⟩
    · intro xs ys some some'
      rw [given _ some, given _ some', given _ (List.append_ne_nil_of_left_ne_nil some ys),
        List.map_append, String.join_append, List.all_append]
      exact ⟨rfl, code_and _ _⟩
    · intro words some clock
      have untimed : ∀ word, automaton.run word (flags.options program words).budget .still =
          automaton.run word flags.budget clock :=
        fun word => automaton.run_untimed rfl word clock .still
      rw [given words some]
      apply if_congr _ rfl rfl
      simp only [untimed, List.all_eq_true]
  · intro e fails words
    rw [responds, Options.respond, fails]

/-- A text is read back from its bytes. -/
theorem FileSystem.definition_toUTF8 (text path : String) :
    definition (.ok (.file text.toUTF8)) path = Definition.ofText text := by
  have decoded : String.fromUTF8? text.toUTF8 = some text := dif_pos text.isValidUTF8
  rw [definition, Except.bind, FileTree.text, decoded]
  rfl

theorem FileSystem.find_program (bytes : ByteArray) :
    find ⟨.directory [("p.pda", .file bytes)], []⟩ "./p.pda" = .ok (.file bytes) := by
  have isMap : FileTree.IsMap [("p.pda", .file bytes)] :=
    ⟨List.nodup_singleton _, List.forall_mem_singleton.mpr (by decide : FileTree.IsName "p.pda")⟩
  have path : entryPath (standing 0) "p.pda" = "./p.pda" := entryPath_standing 0 "p.pda"
  rw [← path, find_entry (find_standing _ (by decide)) isMap (List.mem_singleton.mpr rfl), path,
    if_neg (by decide)]

def FileSystem.parentheses : FileSystem :=
  ⟨.directory [("p.pda", .file Samples.balancedParentheses.toUTF8)], []⟩

theorem FileSystem.loadDefinition_parentheses :
    parentheses.loadDefinition "./p.pda" = .ok .balancedParentheses := by
  have found : parentheses.find "./p.pda" = .ok (.file Samples.balancedParentheses.toUTF8) :=
    find_program _
  have text : parentheses.loadDefinition "./p.pda" =
      Definition.ofText Samples.balancedParentheses := by
    rw [loadDefinition, found, definition_toUTF8]
  have read := Samples.ofText_balancedParentheses
  rw [← text] at read
  cases loaded : parentheses.loadDefinition "./p.pda" with
  | error e => rw [loaded] at read; cases read
  | ok d => rw [loaded] at read; exact congrArg _ (Option.some.inj read)

theorem FileSystem.loadDefinition_nowhere :
    loadDefinition ⟨.directory [], []⟩ "./p.pda" =
      .error (.unreadableFile "./p.pda" .notFound) := by
  have path : entryPath (standing 0) "p.pda" = "./p.pda" := entryPath_standing 0 "p.pda"
  have missing : find ⟨.directory [], []⟩ "./p.pda" = .error .notFound := by
    rw [← path, find_entryPath (find_standing _ (by decide)) (by decide), path]
    rfl
  rw [loadDefinition, missing]
  rfl

/-- Three configurations are enough for one pair of parentheses and too few for two. -/
theorem command_over_words_parentheses :
    let traced : Flags := { debug := true }
    let bounded : Flags := { json := true, maxSteps := some 3 }
    let command (flags : Flags) words := run .parentheses (flags.arguments "./p.pda" words)
    traced.arguments "./p.pda" ["(())", ")"] =
      ["--program=./p.pda", "--input=(())", "--input=)", "--debug"] ∧
    bounded.arguments "./p.pda" ["(())", "()"] =
      ["--program=./p.pda", "--input=(())", "--input=()", "--json", "--max-steps=3"] ∧
    (command traced ["(())"]).code = 0 ∧
    (command bounded ["(())"]).code = 1 ∧
    (command bounded ["()"]).code = 0 ∧
    (command bounded ["(())", "()"]).code = 1 ∧
    (command bounded ["(())", "()"]).stdout =
      (command bounded ["(())"]).stdout ++ (command bounded ["()"]).stdout ∧
    (command traced ["(())", ")"]).stdout = (command traced ["(())"]).stdout ++
      "Input: )\nStep 0: (q0, ), ε)\n): REJECTED (no applicable transition at position 0)\n\n" ∧
    (command bounded ["(())"]).stdout =
      (Automaton.balancedParentheses.run "(())".toList bounded.budget .still).toJson.renderPretty ++
        "\n" ∧
    command bounded [] = command bounded [""] ∧
    run ⟨.directory [], []⟩ (bounded.arguments "./p.pda" ["(())", "()"]) =
      ⟨2, "", "Error: File error: Failed to read file ./p.pda: " ++
        "No such file or directory (os error 2)\n"⟩ := by
  intro traced bounded command
  have built : (FileSystem.parentheses.loadDefinition "./p.pda").bind Automaton.ofDefinition =
      .ok .balancedParentheses := by
    rw [FileSystem.loadDefinition_parentheses]
    rfl
  have fails : (loadDefinition ⟨.directory [], []⟩ "./p.pda").bind Automaton.ofDefinition =
      .error (.unreadableFile "./p.pda" .notFound) := by
    rw [loadDefinition_nowhere]
    rfl
  obtain ⟨appends, codes, -, -⟩ := (command_over_words traced "./p.pda" .parentheses).1 _ built
  obtain ⟨appends', codes', -, empty⟩ :=
    (command_over_words bounded "./p.pda" .parentheses).1 _ built
  have refused := (command_over_words bounded "./p.pda" ⟨.directory [], []⟩).2 _ fails
  have prints (flags : Flags) (word : String) : (command flags [word]).stdout =
      (flags.options "./p.pda" [word]).report word
        (Automaton.balancedParentheses.run word.toList flags.budget .still) := by
    show (run .parentheses (flags.arguments "./p.pda" [word])).stdout = _
    rw [flags.run_arguments, respond_of_built built]
    exact String.empty_append
  have rejection : (command traced [")"]).stdout =
      "Input: )\nStep 0: (q0, ), ε)\n): REJECTED (no applicable transition at position 0)\n\n" :=
    (prints traced ")").trans (by decide +kernel)
  refine ⟨by decide, by decide, ?_, ?_, ?_, ?_, ?_, ?_, prints bounded "(())", empty, ?_⟩
  · exact (codes _ (by simp) .still).trans (by decide +kernel)
  · exact (codes' _ (by simp) .still).trans (by decide +kernel)
  · exact (codes' _ (by simp) .still).trans (by decide +kernel)
  · exact (codes' _ (by simp) .still).trans (by decide +kernel)
  · exact (appends' ["(())"] ["()"] (by simp) (by simp)).1
  · rw [← rejection]
    exact (appends ["(())"] [")"] (by simp) (by simp)).1
  · exact (refused _).trans (by decide +kernel)

end Pushdown
