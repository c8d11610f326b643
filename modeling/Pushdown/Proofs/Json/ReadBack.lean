import Pushdown.Json.Forms
import Pushdown.Proofs.Json.Layouts
import Pushdown.Proofs.Json.Records

/-!
# Values read back from JSON

What is written for a value is read as that value. A record may also be given with its fields in
another order, with members that it does not know, and without optional fields that are `null`.
-/

namespace Pushdown

open Json

/-! ### Names and words -/

theorem Symbol.ofJson?_toJson (x : Symbol) : Symbol.ofJson? x.toJson = some x := by
  simp [Symbol.ofJson?, Symbol.toJson, character?]

theorem Word.ofJson?_toJson (w : Word) : Word.ofJson? w.toJson = some w :=
  list?_ofList Symbol.ofJson?_toJson w

theorem option?_symbol (x : Option Symbol) :
    option? Symbol.ofJson? (ofOption Symbol.toJson x) = some x :=
  option?_ofOption (fun y _ => Symbol.ofJson?_toJson y) fun _ => nofun

theorem list?_string (names : List State) :
    list? Json.string? (ofList Json.string names) = some names :=
  list?_ofList (fun (_ : String) => rfl) names

/-! ### Choices -/

theorem Acceptance.ofJson?_toJson (acceptance : Acceptance) :
    Acceptance.ofJson? acceptance.toJson = some acceptance := by
  cases acceptance <;> rfl

theorem Criterion.ofJson?_toJson (criterion : Criterion) :
    Criterion.ofJson? criterion.toJson = some criterion := by
  cases criterion <;> rfl

theorem Alphabet.ofJson?_toJson (alphabet : Alphabet) :
    Alphabet.ofJson? alphabet.toJson = some alphabet := by
  cases alphabet <;> rfl

def RejectReason.Fits : RejectReason → Prop
  | .circling cursor | .stuck cursor => cursor < UInt64.size
  | _ => True

theorem RejectReason.ofJson?_toJson {reason : RejectReason} (fits : reason.Fits) :
    RejectReason.ofJson? reason.toJson = some reason := by
  have cursor {n : Nat} (small : n < UInt64.size) :
      RejectReason.cursor? (some (.object [("cursor", .natural n)])) = some n := by
    have word := word?_natural (n := n) (Nat.le_sub_one_of_lt small)
    show (required word? (some (.natural n))) = _
    exact word
  cases reason with
  | circling n => exact congrArg (Option.map RejectReason.circling) (cursor fits)
  | stuck n => exact congrArg (Option.map RejectReason.stuck) (cursor fits)
  | notFinal | stackLeft | outOfBudget => rfl

def Verdict.Fits : Verdict → Prop
  | .rejected reason => reason.Fits
  | _ => True

theorem Verdict.ofJson?_toJson {verdict : Verdict} (fits : verdict.Fits) :
    Verdict.ofJson? verdict.toJson = some verdict := by
  cases verdict with
  | accepted criterion =>
    exact congrArg (Option.map Verdict.accepted) criterion.ofJson?_toJson
  | rejected reason =>
    exact congrArg (Option.map Verdict.rejected) (RejectReason.ofJson?_toJson fits)

/-! ### Records -/

namespace Transition

def Key.fields (key : Key) : List (String × Json) :=
  [("state", .string key.state), ("input", ofOption Symbol.toJson key.reads),
    ("stack", ofOption Symbol.toJson key.pops)]

def Key.SpeltBy (key : Key) (json : Json) : Prop :=
  ∃ members, json = .object members ∧ Rearranges ["input", "stack"] key.fields members

theorem Key.SpeltBy.ofJson?_eq {key : Key} {json : Json} (spelt : key.SpeltBy json) :
    Key.ofJson? json = some key := by
  obtain ⟨members, rfl, rearranges⟩ := spelt
  have distinct : (key.fields.map Prod.fst).Nodup := by simp [Key.fields]
  obtain ⟨found, looked, gives⟩ := rearranges.fields? distinct 3
  obtain _ | ⟨state, _ | ⟨reads, _ | ⟨pops, ⟨⟩⟩⟩⟩ := gives
  have looked : Json.fields? ["state", "input", "stack"] 3 (.object members) = some _ := looked
  simp only [Key.ofJson?, looked, Option.bind_eq_bind, Option.bind_some, state.required (by decide),
    reads.optional, pops.optional, option?_symbol]
  rfl

def Target.fields (target : Target) : List (String × Json) :=
  [("destination", .string target.destination), ("push", Word.toJson target.pushes)]

def Target.SpeltBy (target : Target) (json : Json) : Prop :=
  ∃ members, json = .object members ∧ Rearranges [] target.fields members

theorem Target.SpeltBy.ofJson?_eq {target : Target} {json : Json} (spelt : target.SpeltBy json) :
    Target.ofJson? json = some target := by
  obtain ⟨members, rfl, rearranges⟩ := spelt
  have distinct : (target.fields.map Prod.fst).Nodup := by simp [Target.fields]
  obtain ⟨found, looked, gives⟩ := rearranges.fields? distinct 2
  obtain _ | ⟨destination, _ | ⟨pushes, ⟨⟩⟩⟩ := gives
  have looked : Json.fields? ["destination", "push"] 2 (.object members) = some _ := looked
  simp only [Target.ofJson?, looked, Option.bind_eq_bind, Option.bind_some,
    destination.required (by decide), pushes.required (by decide), Word.ofJson?_toJson]
  rfl

end Transition

def Rule.fields (rule : Rule) : List (String × Json) :=
  [("origin", .string rule.origin), ("input", ofOption Symbol.toJson rule.reads),
    ("pop", ofOption Symbol.toJson rule.pops), ("destination", .string rule.destination),
    ("push", Word.toJson rule.pushes)]

def Rule.SpeltBy (rule : Rule) (json : Json) : Prop :=
  ∃ members, json = .object members ∧ Rearranges ["input", "pop"] rule.fields members

theorem Rule.SpeltBy.ofJson?_eq {rule : Rule} {json : Json} (spelt : rule.SpeltBy json) :
    Rule.ofJson? json = some rule := by
  obtain ⟨members, rfl, rearranges⟩ := spelt
  have distinct : (rule.fields.map Prod.fst).Nodup := by simp [Rule.fields]
  obtain ⟨found, looked, gives⟩ := rearranges.fields? distinct 5
  obtain _ | ⟨origin, _ | ⟨reads, _ | ⟨pops, _ | ⟨destination, _ | ⟨pushes, ⟨⟩⟩⟩⟩⟩⟩ := gives
  have looked : Json.fields? ["origin", "input", "pop", "destination", "push"] 5
    (.object members) = some _ := looked
  simp only [Rule.ofJson?, looked, Option.bind_eq_bind, Option.bind_some,
    origin.required (by decide), reads.optional, pops.optional, destination.required (by decide),
    pushes.required (by decide), option?_symbol, Word.ofJson?_toJson]
  rfl

namespace Definition

def fields (d : Definition) (rules : List Json) : List (String × Json) :=
  [("name", .string d.name), ("states", ofList .string d.states),
    ("input_alphabet", Word.toJson d.inputAlphabet),
    ("stack_alphabet", Word.toJson d.stackAlphabet), ("initial_state", .string d.initialState),
    ("final_states", ofList .string d.finalStates), ("acceptance", d.acceptance.toJson),
    ("initial_stack_symbol", ofOption Symbol.toJson d.bottom), ("transitions", .array rules)]

def SpeltBy (d : Definition) (json : Json) : Prop :=
  ∃ rules members, json = .object members ∧ List.Forall₂ Rule.SpeltBy d.rules rules ∧
    Rearranges ["initial_stack_symbol"] (d.fields rules) members

theorem SpeltBy.ofJson?_eq {d : Definition} {json : Json} (spelt : d.SpeltBy json) :
    Definition.ofJson? json = some d := by
  obtain ⟨rules, members, rfl, spelt, rearranges⟩ := spelt
  have distinct : ((d.fields rules).map Prod.fst).Nodup := by simp [fields]
  have rulesRead : list? Rule.ofJson? (.array rules) = some d.rules := by
    exact list?_array (spelt.imp fun _ _ => Rule.SpeltBy.ofJson?_eq)
  obtain ⟨found, looked, gives⟩ := rearranges.fields? distinct 9
  obtain _ | ⟨name, _ | ⟨states, _ | ⟨input, _ | ⟨stack, _ | ⟨initial, _ | ⟨finals,
    _ | ⟨acceptance, _ | ⟨bottom, _ | ⟨transitions, ⟨⟩⟩⟩⟩⟩⟩⟩⟩⟩⟩ := gives
  have looked : Json.fields? fieldNames 9 (.object members) = some _ := looked
  simp only [ofJson?, looked, Option.bind_eq_bind, Option.bind_some, name.required (by decide),
    states.required (by decide), input.required (by decide), stack.required (by decide),
    initial.required (by decide), finals.required (by decide), acceptance.required (by decide),
    bottom.optional, transitions.required (by decide), list?_string, Word.ofJson?_toJson,
    Acceptance.ofJson?_toJson, option?_symbol, rulesRead]
  rfl

end Definition

/-! ### Budgets -/

/-- The whole seconds of a duration fit a machine word. -/
def Duration.Fits (duration : Duration) : Prop := duration.nanoseconds < UInt64.size * second

theorem Duration.ofJson?_toJson {duration : Duration} (fits : duration.Fits) :
    Duration.ofJson? duration.toJson = some duration := by
  have secs : duration.nanoseconds / second ≤ wordMax :=
    Nat.le_sub_one_of_lt (Nat.div_lt_of_lt_mul (by rw [Nat.mul_comm]; exact fits))
  have less : duration.nanoseconds % second < second := Nat.mod_lt _ (by decide)
  have small : second < UInt32.size := by decide
  have nanos : duration.nanoseconds % second ≤ wordMax := by
    have large : second ≤ wordMax := by decide
    omega
  have looked : Json.fields? ["secs", "nanos"] 2
      (.object [("secs", .natural (duration.nanoseconds / second)),
        ("nanos", .natural (duration.nanoseconds % second))]) =
      some [some (.natural (duration.nanoseconds / second)),
        some (.natural (duration.nanoseconds % second))] := rfl
  have whole := Nat.div_add_mod' duration.nanoseconds second
  simp [Duration.ofJson?, Duration.toJson, looked, required, word?_natural secs,
    word?_natural nanos, Nat.div_eq_of_lt less, secs, less.trans small, whole]

structure Budget.Fits (budget : Budget) : Prop where
  maxSteps : budget.maxSteps < UInt64.size
  maxDepth : budget.maxDepth < UInt64.size
  timeout : ∀ limit ∈ budget.timeout, limit.Fits

namespace Budget

def fields (budget : Budget) : List (String × Json) :=
  [("max_steps", .natural budget.maxSteps), ("max_depth", .natural budget.maxDepth),
    ("timeout", ofOption Duration.toJson budget.timeout)]

def SpeltBy (budget : Budget) (json : Json) : Prop :=
  ∃ members, json = .object members ∧ Rearranges ["timeout"] budget.fields members

theorem SpeltBy.ofJson?_eq {budget : Budget} (fits : budget.Fits) {json : Json}
    (spelt : budget.SpeltBy json) : Budget.ofJson? json = some budget := by
  obtain ⟨members, rfl, rearranges⟩ := spelt
  have distinct : (budget.fields.map Prod.fst).Nodup := by simp [fields]
  have timeoutRead : option? Duration.ofJson? (ofOption Duration.toJson budget.timeout) =
      some budget.timeout :=
    option?_ofOption (fun limit given => Duration.ofJson?_toJson (fits.timeout limit given))
      fun _ => nofun
  obtain ⟨found, looked, gives⟩ := rearranges.fields? distinct 2
  obtain _ | ⟨maxSteps, _ | ⟨maxDepth, _ | ⟨timeout, ⟨⟩⟩⟩⟩ := gives
  have looked : Json.fields? ["max_steps", "max_depth", "timeout"] 2 (.object members) = some _ :=
    looked
  simp only [ofJson?, looked, Option.bind_eq_bind, Option.bind_some, maxSteps.required (by decide),
    maxDepth.required (by decide), timeout.optional, timeoutRead,
    word?_natural (Nat.le_sub_one_of_lt fits.maxSteps),
    word?_natural (Nat.le_sub_one_of_lt fits.maxDepth)]
  rfl

end Budget

/-! ### Texts -/

section Texts

variable {α : Type} {encode : α → Json} {decode : Json → Option α} {json : Json} {a : α}

theorem readable_ofOption (readable : ∀ b, Readable (encode b)) (b : Option α) :
    Readable (ofOption encode b) := by
  cases b with
  | none => exact .null
  | some b => exact readable b

theorem readable_ofList (readable : ∀ b, Readable (encode b)) (as : List α) :
    Readable (ofList encode as) := by
  refine .array fun item among => ?_
  obtain ⟨b, -, rfl⟩ := List.mem_map.mp among
  exact readable b

/-- A value is read from both texts that are written for a JSON value. -/
def ReadBack (decode : Json → Option α) (json : Json) (a : α) : Prop :=
  (Json.ofText? json.render).bind decode = some a ∧
    (Json.ofText? json.renderPretty).bind decode = some a

/-- A value is read from every text of a JSON value. There are such texts if its numbers are written
as numbers are. -/
def ReadFrom (decode : Json → Option α) (json : Json) (a : α) : Prop :=
  (∀ text, Json.ofText? text = some json → (Json.ofText? text).bind decode = some a) ∧
    (Readable json → ReadBack decode json a)

theorem readBack (readable : Readable json) (decoded : decode json = some a) :
    ReadBack decode json a := by
  rw [ReadBack, ofText?_render readable, ofText?_renderPretty readable]
  exact ⟨decoded, decoded⟩

theorem readFrom (decoded : decode json = some a) : ReadFrom decode json a := by
  refine ⟨fun text read => ?_, fun readable => readBack readable decoded⟩
  rw [read]
  exact decoded

end Texts

theorem Symbol.readable (x : Symbol) : Readable x.toJson := .string _

theorem Word.readable (w : Word) : Readable w.toJson := readable_ofList Symbol.readable w

theorem readable_symbol (x : Option Symbol) : Readable (ofOption Symbol.toJson x) :=
  readable_ofOption Symbol.readable x

theorem readable_names (names : List State) : Readable (ofList Json.string names) :=
  readable_ofList Readable.string names

theorem Acceptance.readable (acceptance : Acceptance) : Readable acceptance.toJson := by
  cases acceptance <;> exact .string _

theorem Criterion.readable (criterion : Criterion) : Readable criterion.toJson := by
  cases criterion <;> exact .string _

theorem Alphabet.readable (alphabet : Alphabet) : Readable alphabet.toJson := by
  cases alphabet <;> exact .string _

/-- An object is readable if its members are, one by one. -/
theorem readable_cons {name : String} {value : Json} {members : List (String × Json)}
    (first : Readable value) (others : Readable (.object members)) :
    Readable (.object ((name, value) :: members)) :=
  .object (List.forall_mem_cons.mpr ⟨first, others.object_inv⟩)

theorem readable_empty : Readable (.object []) := .object nofun

theorem RejectReason.readable (reason : RejectReason) : Readable reason.toJson := by
  cases reason with
  | circling n | stuck n =>
    exact readable_cons (readable_cons (.natural n) readable_empty) readable_empty
  | notFinal | stackLeft | outOfBudget => exact .string _

theorem Verdict.readable (verdict : Verdict) : Readable verdict.toJson := by
  cases verdict with
  | accepted criterion => exact readable_cons criterion.readable readable_empty
  | rejected reason => exact readable_cons reason.readable readable_empty

theorem Transition.Key.readable (key : Transition.Key) : Readable key.toJson :=
  readable_cons (.string _) <| readable_cons (readable_symbol _) <|
    readable_cons (readable_symbol _) readable_empty

theorem Transition.Target.readable (target : Transition.Target) : Readable target.toJson :=
  readable_cons (.string _) <| readable_cons (Word.readable _) readable_empty

theorem Rule.readable (rule : Rule) : Readable rule.toJson :=
  readable_cons (.string _) <| readable_cons (readable_symbol _) <|
    readable_cons (readable_symbol _) <| readable_cons (.string _) <|
      readable_cons (Word.readable _) readable_empty

theorem Definition.readable (d : Definition) : Readable d.toJson :=
  readable_cons (.string _) <| readable_cons (readable_names _) <|
    readable_cons (Word.readable _) <| readable_cons (Word.readable _) <|
      readable_cons (.string _) <| readable_cons (readable_names _) <|
        readable_cons (Acceptance.readable _) <| readable_cons (readable_symbol _) <|
          readable_cons (readable_ofList Rule.readable _) readable_empty

theorem Duration.readable (duration : Duration) : Readable duration.toJson :=
  readable_cons (.natural _) <| readable_cons (.natural _) readable_empty

theorem Budget.readable (budget : Budget) : Readable budget.toJson :=
  readable_cons (.natural _) <| readable_cons (.natural _) <|
    readable_cons (readable_ofOption Duration.readable _) readable_empty

theorem Rule.speltBy_toJson (rule : Rule) : rule.SpeltBy rule.toJson :=
  ⟨rule.fields, rfl, .self _ rule.fields⟩

theorem Definition.speltBy_toJson (d : Definition) : d.SpeltBy d.toJson := by
  refine ⟨d.rules.map Rule.toJson, d.fields (d.rules.map Rule.toJson), rfl, ?_, .self _ _⟩
  rw [List.forall₂_map_right_iff]
  exact List.forall₂_same.mpr fun rule _ => rule.speltBy_toJson

/-- Definitions, their parts, verdicts and budgets are read back from what is written for them, if
their numbers fit machine words. Records are also read from other objects that spell them. -/
theorem read_back_from_json :
    ((∀ d : Definition, ReadBack Definition.ofJson? d.toJson d) ∧
      (∀ rule : Rule, ReadBack Rule.ofJson? rule.toJson rule) ∧
      (∀ key : Transition.Key, ReadBack Transition.Key.ofJson? key.toJson key) ∧
      (∀ target : Transition.Target, ReadBack Transition.Target.ofJson? target.toJson target) ∧
      (∀ acceptance : Acceptance, ReadBack Acceptance.ofJson? acceptance.toJson acceptance) ∧
      (∀ criterion : Criterion, ReadBack Criterion.ofJson? criterion.toJson criterion) ∧
      (∀ reason : RejectReason, reason.Fits → ReadBack RejectReason.ofJson? reason.toJson reason) ∧
      (∀ verdict : Verdict, verdict.Fits → ReadBack Verdict.ofJson? verdict.toJson verdict) ∧
      (∀ alphabet : Alphabet, ReadBack Alphabet.ofJson? alphabet.toJson alphabet) ∧
      ∀ budget : Budget, budget.Fits → ReadBack Budget.ofJson? budget.toJson budget) ∧
    (∀ (d : Definition) (json : Json), d.SpeltBy json → ReadFrom Definition.ofJson? json d) ∧
    (∀ (rule : Rule) (json : Json), rule.SpeltBy json → ReadFrom Rule.ofJson? json rule) ∧
    (∀ (key : Transition.Key) (json : Json), key.SpeltBy json →
      ReadFrom Transition.Key.ofJson? json key) ∧
    ∀ (budget : Budget) (json : Json), budget.Fits → budget.SpeltBy json →
      ReadFrom Budget.ofJson? json budget := by
  have key (key : Transition.Key) : Transition.Key.ofJson? key.toJson = some key :=
    Transition.Key.SpeltBy.ofJson?_eq ⟨key.fields, rfl, .self _ key.fields⟩
  have target (target : Transition.Target) :
      Transition.Target.ofJson? target.toJson = some target :=
    Transition.Target.SpeltBy.ofJson?_eq ⟨target.fields, rfl, .self _ target.fields⟩
  have budget (budget : Budget) (fits : budget.Fits) : Budget.ofJson? budget.toJson = some budget :=
    Budget.SpeltBy.ofJson?_eq fits ⟨budget.fields, rfl, .self _ budget.fields⟩
  refine ⟨⟨?_, ?_, ?_, ?_, ?_, ?_, ?_, ?_, ?_, ?_⟩, ?_, ?_, ?_, ?_⟩
  · exact fun d => readBack d.readable d.speltBy_toJson.ofJson?_eq
  · exact fun rule => readBack rule.readable rule.speltBy_toJson.ofJson?_eq
  · exact fun a => readBack a.readable (key a)
  · exact fun a => readBack a.readable (target a)
  · exact fun a => readBack a.readable a.ofJson?_toJson
  · exact fun a => readBack a.readable a.ofJson?_toJson
  · exact fun a fits => readBack a.readable (RejectReason.ofJson?_toJson fits)
  · exact fun a fits => readBack a.readable (Verdict.ofJson?_toJson fits)
  · exact fun a => readBack a.readable a.ofJson?_toJson
  · exact fun a fits => readBack a.readable (budget a fits)
  · exact fun d json spelt => readFrom spelt.ofJson?_eq
  · exact fun rule json spelt => readFrom spelt.ofJson?_eq
  · exact fun key json spelt => readFrom spelt.ofJson?_eq
  · exact fun budget json fits spelt => readFrom (spelt.ofJson?_eq fits)

/-- A key without the field for what it pops, behind a member of another name, and the largest
numbers. -/
theorem read_back_from_json_spelt :
    let key : Transition.Key := ⟨"q", some '\x22', none⟩
    let json : Json := .object [("note", .array [.numeral ['1', '.', '5'], .unpaired]),
      ("input", Symbol.toJson '\x22'), ("state", .string "q")]
    let verdict : Verdict := .rejected (.stuck (UInt64.size - 1))
    let budget : Budget := ⟨UInt64.size - 1, UInt64.size - 1, some ⟨UInt64.size * 1000000000 - 1⟩⟩
    ReadBack Transition.Key.ofJson? json key ∧ ReadBack Verdict.ofJson? verdict.toJson verdict ∧
      ReadBack Budget.ofJson? budget.toJson budget := by
  intro key json verdict budget
  obtain ⟨⟨-, -, -, -, -, -, -, verdicts, -, budgets⟩, -, -, keys, -⟩ := read_back_from_json
  have note : Readable (.array [.numeral ['1', '.', '5'], .unpaired]) := by
    refine .array ?_
    rintro item (_ | ⟨_, _ | ⟨_, ⟨⟩⟩⟩)
    · exact .numeral rfl
    · exact .unpaired
  have readable : Readable json := readable_cons note <|
    readable_cons (Symbol.readable _) <| readable_cons (.string _) readable_empty
  have spelt : key.SpeltBy json := by
    refine ⟨_, rfl, [("state", .string "q"), ("input", Symbol.toJson '\x22')],
      [("note", .array [.numeral ['1', '.', '5'], .unpaired])], ?_, ?_, ?_, ?_⟩
    · exact .cons_cons _ (.cons_cons _ (.cons _ .slnil))
    · simp [key, Transition.Key.fields, ofOption]
    · simp [key, Transition.Key.fields]
    · exact List.reverse_perm [("state", .string "q"), ("input", Symbol.toJson '\x22'),
        ("note", .array [.numeral ['1', '.', '5'], .unpaired])]
  have fits : budget.Fits := by
    refine ⟨by decide, by decide, ?_⟩
    rintro _ ⟨⟩
    show UInt64.size * 1000000000 - 1 < UInt64.size * Duration.second
    decide
  have word : verdict.Fits := show UInt64.size - 1 < UInt64.size by decide
  exact ⟨(keys key json spelt).2 readable, verdicts verdict word, budgets budget fits⟩

end Pushdown
