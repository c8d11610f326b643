import Pushdown.Proofs.Documents
import Pushdown.Proofs.WellFormed

/-!
# The round trip of a definition

A text that is laid out for a definition is read back as that definition.
-/

namespace Pushdown

open Format

namespace Format

variable {text : List Char} {sections others : List Section}

theorem findsRepeated : FindsRepeated (fun entry : Span × Section => entry.2.kind)
    (fun entry => (entry.1, entry.2.kind)) firstRepeated where
  nil _ := rfl
  cons _ _ _ := rfl

theorem firstRepeated_eq_none {seen : List Section.Kind} {found : List (Span × Section)} :
    firstRepeated seen found = none ↔
      (found.map fun entry => entry.2.kind).Nodup ∧ ∀ entry ∈ found, entry.2.kind ∉ seen :=
  findsRepeated.eq_none_iff

/-- The sections of a kind are those of a form, and `hold` takes them apart. -/
structure Picks {α : Type} (kind : Section.Kind) (form : α → Section) (hold : Section → Option α) :
    Prop where
  kind_form : ∀ a, (form a).kind = kind
  hold_iff : ∀ sec a, hold sec = some a ↔ sec = form a
  of_kind : ∀ sec : Section, sec.kind = kind → ∃ a, sec = form a

section Picks

variable {α : Type} {kind : Section.Kind} {form : α → Section} {hold : Section → Option α} {a : α}

theorem Picks.findSome?_eq_none (picks : Picks kind form hold) :
    sections.findSome? hold = none ↔ kind ∉ sections.map Section.kind := by
  rw [List.findSome?_eq_none_iff, List.mem_map, not_exists]
  refine forall_congr' fun sec => ?_
  rw [not_and, ← Option.isNone_iff_eq_none]
  constructor
  · intro none member same
    obtain ⟨a, rfl⟩ := picks.of_kind sec same
    have some := (picks.hold_iff _ a).mpr rfl
    simpa [some] using none member
  · intro other member
    cases held : hold sec with
    | none => rfl
    | some a =>
      obtain rfl := (picks.hold_iff sec a).mp held
      exact absurd (picks.kind_form a) (other member)

theorem Picks.mem_of_findSome? (picks : Picks kind form hold)
    (found : sections.findSome? hold = some a) : form a ∈ sections := by
  obtain ⟨sec, member, held⟩ := List.exists_of_findSome?_eq_some found
  exact (picks.hold_iff sec a).mp held ▸ member

/-- Where no kind is there twice, what is found is what the one section of its kind declares. -/
theorem Picks.mem_iff (picks : Picks kind form hold)
    (distinct : (sections.map Section.kind).Nodup) :
    form a ∈ sections ↔ sections.findSome? hold = some a := by
  induction sections with
  | nil => simp
  | cons sec sections ih =>
    obtain ⟨new, distinct⟩ := List.nodup_cons.mp distinct
    rw [List.mem_cons, List.findSome?_cons, ih distinct]
    cases held : hold sec with
    | none =>
      have other : form a ≠ sec := by
        rintro rfl
        rw [(picks.hold_iff _ a).mpr rfl] at held
        cases held
      exact or_iff_right other
    | some b =>
      obtain rfl := (picks.hold_iff sec b).mp held
      rw [picks.kind_form] at new
      have none := picks.findSome?_eq_none.mpr new
      have apart : form a = form b ↔ b = a := by
        rw [eq_comm, ← picks.hold_iff, held, Option.some.injEq]
      simp [none, apart]

theorem Picks.findSome?_perm (picks : Picks kind form hold) (perm : sections.Perm others)
    (distinct : (sections.map Section.kind).Nodup) :
    sections.findSome? hold = others.findSome? hold := by
  have distinct' := (perm.map Section.kind).nodup_iff.mp distinct
  apply Option.ext
  intro a
  rw [← picks.mem_iff distinct, ← picks.mem_iff distinct', perm.mem_iff]

end Picks

theorem picks : Picks .name Section.name Section.name? ∧
    Picks .states Section.states Section.states? ∧ Picks .input Section.input Section.input? ∧
    Picks .stack Section.stack Section.stack? ∧ Picks .initial Section.initial Section.initial? ∧
    Picks .finals Section.finals Section.finals? ∧ Picks .accept Section.accept Section.accept? ∧
    Picks .bottom Section.bottom Section.bottom? ∧ Picks .rules Section.rules Section.rules? := by
  refine ⟨?_, ?_, ?_, ?_, ?_, ?_, ?_, ?_, ?_⟩
  all_goals
    refine ⟨fun _ => rfl, ?_, ?_⟩
    · rintro ⟨⟩ _ <;> constructor <;> rintro ⟨⟩ <;> rfl
    · rintro ⟨⟩ ⟨⟩
      exact ⟨_, rfl⟩

/-- Sections are read in front of a gap that ends the text, and behind any other gap. -/
theorem sectionsOf_gap {sec : Section} {secs : List Section}
    {lead before inner core kept : List Char} (writable : ∀ s ∈ sec :: secs, IsWritable s)
    (written : core ∈ Layout.separated Layout.lineEnds Layout.declaration (sec :: secs))
    (split : core = before ++ inner) (blank : before ∈ Layout.blanks)
    (gap : Gap (inner ++ kept) lead) (tail : Gap [] kept) :
    ∃ found, sectionsOf lead = .ok found ∧ found.map Prod.snd = sec :: secs := by
  obtain ⟨first, declares, more, others, joined⟩ := Language.mem_mul.mp written
  have same : first ++ (more ++ kept) = before ++ (inner ++ kept) := by
    rw [← List.append_assoc, ← List.append_assoc before, ← split]
    exact congrArg (· ++ kept) joined
  have skipped : skip (first ++ (more ++ kept)) = skip (inner ++ kept) := by
    rw [same, skip_append blank]
  have inside : Inside (inner ++ kept) := by
    rw [Inside, ← skipped]
    exact inside_declaration declares (more ++ kept)
  exact sectionsOf_eq_ok gap inside
    ((series_sections writable declares others tail).congr skipped)

/-- A text that is laid out for some sections is read into them once it is trimmed. -/
theorem sectionsOf_trim {list : List Section} (some : list ≠ [])
    (writable : ∀ sec ∈ list, IsWritable sec) (written : text ∈ Layout.document list) :
    ∃ found, sectionsOf (Text.trim text) = .ok found ∧ found.map Prod.snd = list := by
  obtain ⟨sec, secs, rfl⟩ := List.exists_cons_of_ne_nil some
  obtain ⟨_, front, trail, behind, rfl⟩ := Language.mem_mul.mp written
  obtain ⟨lead, emptyLines, core, inside, rfl⟩ := Language.mem_mul.mp front
  obtain ⟨before, inner, split, blank, trimmed⟩ := trimmed_sections writable inside
  obtain ⟨kept, kept_eq⟩ : ∃ kept, kept = (trail.reverse.dropWhile Text.isBlank).reverse :=
    ⟨_, rfl⟩
  have tail : Gap [] kept := kept_eq ▸ (gap_document_end behind).trimEnd
  have visible : ∀ c ∈ (inner ++ kept).head?, Text.isBlank c = false := by
    rw [List.head?_append_of_ne_nil _ trimmed.some]
    exact trimmed.head
  have trims : Text.trim (lead ++ core ++ trail) =
      (lead ++ (before ++ (inner ++ kept))).dropWhile Text.isBlank := by
    rw [← List.append_assoc lead before, dropWhile_append_of_head? _ visible, split,
      ← List.append_assoc lead before, trimmed.trim_append, kept_eq, List.append_assoc]
  have gap : Gap (inner ++ kept) (lead ++ (before ++ (inner ++ kept))) :=
    gap_emptyLines emptyLines (gap_blanks blank .done)
  rw [trims]
  exact sectionsOf_gap writable inside split blank (gap.dropWhile_isBlank visible) tail

/-- Sections of different kinds are put together in any order. -/
theorem ofSections_perm (perm : sections.Perm others)
    (distinct : (sections.map Section.kind).Nodup) :
    Definition.ofSections sections = Definition.ofSections others := by
  obtain ⟨name, states, input, stack, initial, finals, accept, bottom, rules⟩ := picks
  unfold Definition.ofSections
  rw [name.findSome?_perm perm distinct, states.findSome?_perm perm distinct,
    input.findSome?_perm perm distinct, accept.findSome?_perm perm distinct,
    rules.findSome?_perm perm distinct, stack.findSome?_perm perm distinct,
    initial.findSome?_perm perm distinct, finals.findSome?_perm perm distinct,
    bottom.findSome?_perm perm distinct]

end Format

namespace Definition

variable {d : Definition} {list : List Section} {initial : Option State}
  {stack : Option (List Symbol)} {finals : Option (List State)}

theorem distinct_sections :
    ((d.sections initial stack finals).map Section.kind).Nodup := by
  have optional {α : Type} (found : Option α) (form : α → Section) (kind : Section.Kind)
      (same : ∀ a, (form a).kind = kind) :
      ((found.map form).toList.map Section.kind).Sublist [kind] := by
    cases found with
    | none => exact List.nil_sublist _
    | some a => rw [Option.map_some, Option.toList_some, List.map_singleton, same]
  have head := List.Sublist.refl [Section.Kind.name, .states, .input, .accept, .rules]
  have all : ([Section.Kind.name, .states, .input, .accept, .rules] ++ [Section.Kind.initial] ++
      [Section.Kind.stack] ++ [Section.Kind.finals] ++ [Section.Kind.bottom]).Nodup := by decide
  refine all.sublist ?_
  simp only [sections, List.map_append]
  exact (((head.append (optional initial .initial .initial fun _ => rfl)).append
    (optional stack .stack .stack fun _ => rfl)).append
    (optional finals .finals .finals fun _ => rfl)).append
    (optional d.bottom .bottom .bottom fun _ => rfl)

theorem ofSections_sections : ofSections (d.sections initial stack finals) = .ok { d with
    initialState := initial.getD (d.states.headD "")
    stackAlphabet := stack.getD []
    finalStates := finals.getD [] } := by
  unfold sections
  cases initial <;> cases stack <;> cases finals <;> cases d.bottom <;> rfl

theorem DescribedBy.distinct (described : d.DescribedBy list) :
    (list.map Section.kind).Nodup := by
  obtain ⟨initial, stack, finals, -, -, -, perm⟩ := described
  rw [(perm.map Section.kind).nodup_iff]
  exact distinct_sections

theorem DescribedBy.ofSections_eq (described : d.DescribedBy list) : ofSections list = .ok d := by
  have distinct := described.distinct
  obtain ⟨initial, stack, finals, initial_eq, stack_eq, finals_eq, perm⟩ := described
  have first : initial.getD (d.states.headD "") = d.initialState := by
    rcases initial_eq with rfl | ⟨rfl, first⟩
    · rfl
    · rw [Option.getD_none, List.headD_eq_head?_getD, first, Option.getD_some]
  have stacked : stack.getD [] = d.stackAlphabet := by
    rcases stack_eq with rfl | ⟨rfl, none⟩
    · rfl
    · exact none.symm
  have final : finals.getD [] = d.finalStates := by
    rcases finals_eq with rfl | ⟨rfl, none⟩
    · rfl
    · exact none.symm
  rw [ofSections_perm perm distinct, ofSections_sections, first, stacked, final]

/-- The names in a rule of a definition are among those that it declares. -/
theorem Writable.rule (writable : d.Writable) (wellFormed : d.WellFormed) {r : Rule}
    (member : r ∈ d.rules) : IsWritableRule r where
  origin := writable.states _ (wellFormed.rooted.ends r member).1
  destination := writable.states _ (wellFormed.rooted.ends r member).2
  reads x named :=
    writable.symbols x (List.mem_append_left _ (wellFormed.spelled.reads r member x named))
  pops x named :=
    writable.symbols x (List.mem_append_right _ (wellFormed.spelled.pops r member x named))
  pushes x named :=
    writable.symbols x (List.mem_append_right _ (wellFormed.spelled.pushes r member x named))

theorem Writable.isWritable_of_mem (writable : d.Writable) (wellFormed : d.WellFormed)
    {sec : Section} (initial_eq : ∀ q ∈ initial, q = d.initialState)
    (stack_eq : ∀ xs ∈ stack, xs = d.stackAlphabet)
    (finals_eq : ∀ names ∈ finals, names = d.finalStates)
    (member : sec ∈ d.sections initial stack finals) : IsWritable sec := by
  have stacked (x : Symbol) (declared : x ∈ d.stackAlphabet) : IsWritableSymbol x :=
    writable.symbols x (List.mem_append_right _ declared)
  simp only [sections, List.mem_append, List.mem_cons, List.not_mem_nil, or_false,
    Option.mem_toList, Option.map_eq_some_iff] at member
  rcases member with ((((rfl | rfl | rfl | rfl | rfl) | ⟨q, named, rfl⟩) | ⟨xs, named, rfl⟩) |
    ⟨names, named, rfl⟩) | ⟨x, named, rfl⟩
  · exact ⟨writable.name_ne_empty, writable.name_trimmed, writable.name_characters⟩
  · exact ⟨wellFormed.rooted.states_ne_nil, writable.states⟩
  · exact fun x declared => writable.symbols x (List.mem_append_left _ declared)
  · trivial
  · exact fun r member => writable.rule wellFormed member
  · rw [initial_eq q named]
    exact writable.states _ wellFormed.rooted.initial
  · rw [stack_eq xs named]
    exact stacked
  · rw [finals_eq names named]
    exact fun q member => writable.states q (wellFormed.rooted.finals q member)
  · exact stacked x (wellFormed.spelled.bottom x named)

theorem DescribedBy.writable (described : d.DescribedBy list) (writable : d.Writable)
    (wellFormed : d.WellFormed) : ∀ sec ∈ list, IsWritable sec := by
  obtain ⟨initial, stack, finals, initial_eq, stack_eq, finals_eq, perm⟩ := described
  intro sec member
  refine writable.isWritable_of_mem wellFormed ?_ ?_ ?_ (perm.mem_iff.mp member)
  · rcases initial_eq with rfl | ⟨rfl, -⟩ <;> simp
  · rcases stack_eq with rfl | ⟨rfl, -⟩ <;> simp
  · rcases finals_eq with rfl | ⟨rfl, -⟩ <;> simp

/-- A definition is read back from every text that is laid out for it and is not too large. -/
theorem ofText_of_document {d : Definition} {list : List Section} {text : String}
    (writable : d.Writable) (passed : d.check = .ok ()) (described : d.DescribedBy list)
    (written : text.toList ∈ Layout.document list) (small : text.utf8ByteSize ≤ sizeLimit) :
    ofText text = .ok d := by
  have wellFormed := check_eq_ok.mp passed
  have some : list ≠ [] := by
    obtain ⟨initial, stack, finals, -, -, -, perm⟩ := described
    rintro rfl
    cases perm.nil_eq
  obtain ⟨found, read, sections_eq⟩ :=
    sectionsOf_trim some (described.writable writable wellFormed) written
  have distinct : (found.map fun entry => entry.2.kind).Nodup := by
    have kinds := described.distinct
    rw [← sections_eq, List.map_map] at kinds
    exact kinds
  have single : checkRepetition (Text.trim text.toList) found = .ok () := by
    unfold checkRepetition
    rw [Format.firstRepeated_eq_none.mpr ⟨distinct, fun _ _ => List.not_mem_nil⟩]
  unfold ofText
  rw [if_neg (Nat.not_lt.mpr small)]
  refine bind_eq_ok.mpr ⟨found, by rw [read]; rfl, check_then_eq_ok.mpr ⟨by rw [single]; rfl, ?_⟩⟩
  rw [sections_eq, described.ofSections_eq]
  exact check_then_eq_ok.mpr ⟨passed, rfl⟩

/-! ### A text with layout -/

/-- It reads any number of `#`. -/
def hashes : Definition where
  name := "Hashes"
  states := ["p"]
  inputAlphabet := ['#']
  stackAlphabet := []
  initialState := "p"
  finalStates := []
  acceptance := .emptyStack
  bottom := none
  rules := [⟨"p", some '#', none, "p", []⟩]

/-- A text of `Definition.hashes`, with lines that end in three ways. -/
def hashesText : String :=
  "rules: # one\r\n\tp,'#',_ -> p,ε\n\n # two\rinput:'#'\nname: Hashes\r\n" ++
    "states:p\naccept:empty-stack"

section Hashes

open Language Layout

theorem word_mem (t : String) : t.toList ∈ token t := ⟨[], nofun, _, rfl, rfl⟩

theorem spaced_mem (t : String) : ' ' :: t.toList ∈ token t :=
  ⟨[' '], List.forall_mem_singleton.mpr (Or.inl rfl), _, rfl, rfl⟩

theorem remark_mem (words : String) (inline : words.toList.all (!isNewline ·) = true) :
    ' ' :: '#' :: words.toList ∈ lineRest := by
  have inline : ∀ c ∈ words.toList, isNewline c = false := by simpa using inline
  exact ⟨[' '], List.forall_mem_singleton.mpr (Or.inl rfl), _, Or.inr ⟨_, rfl, inline⟩, rfl⟩

theorem hashesText_mem : hashesText.toList ∈ document [.rules hashes.rules,
    .input ['#'], .name "Hashes", .states ["p"], .accept .emptyStack] := by
  have keyword (kind : Section.Kind) : (kind.keyword ++ ":").toList ∈ token (kind.keyword ++ ":") :=
    word_mem _
  have tabbed : '\t' :: "p".toList ∈ token "p" :=
    ⟨['\t'], List.forall_mem_singleton.mpr (Or.inr rfl), _, rfl, rfl⟩
  have hash : ['\x27', '#', '\x27'] ∈ symbol '#' := ⟨[], nofun, _, Or.inl rfl, rfl⟩
  have underscore : "_".toList ∈ Layout.nothing := Or.inr (word_mem "_")
  have epsilon : "ε".toList ∈ Layout.nothing := Or.inl (word_mem "ε")
  have bare : [] ∈ lineRest := ⟨[], nofun, [], Or.inl rfl, rfl⟩
  have lf : ['\n'] ∈ lineBreak := Or.inl rfl
  have cr : ['\r'] ∈ lineBreak := Or.inr (Or.inl rfl)
  have crlf : ['\r', '\n'] ∈ lineBreak := Or.inr (Or.inr rfl)
  have noLines : [] ∈ emptyLines := nil_mem_kstar _
  have twoLines : [['\n'], (' ' :: '#' :: " two".toList) ++ ['\r']].flatten ∈ emptyLines := by
    refine join_mem_kstar (List.forall_mem_cons.mpr ⟨append_mem_mul bare lf, ?_⟩)
    exact List.forall_mem_singleton.mpr (append_mem_mul (remark_mem " two" (by decide)) cr)
  have reads := append_mem_mul (append_mem_mul tabbed (word_mem ",")) hash
  have pops := append_mem_mul (append_mem_mul reads (word_mem ",")) underscore
  have enters := append_mem_mul (append_mem_mul pops (spaced_mem "->")) (spaced_mem "p")
  have rule : _ ∈ Layout.rule ⟨"p", some '#', none, "p", []⟩ :=
    append_mem_mul (append_mem_mul enters (word_mem ",")) epsilon
  have first := append_mem_mul (append_mem_mul (remark_mem " one" (by decide)) crlf) noLines
  have rules : _ ∈ declaration (.rules hashes.rules) :=
    append_mem_mul (keyword .rules) (append_mem_mul (append_mem_mul first rule) nil_mem_one)
  have input : _ ∈ declaration (.input ['#']) :=
    append_mem_mul (keyword .input) (append_mem_mul hash nil_mem_one)
  have name : _ ∈ declaration (.name "Hashes") :=
    append_mem_mul (keyword .name) (spaced_mem "Hashes")
  have states : _ ∈ declaration (.states ["p"]) :=
    append_mem_mul (keyword .states) (append_mem_mul (word_mem "p") nil_mem_one)
  have accept : _ ∈ declaration (.accept .emptyStack) :=
    append_mem_mul (keyword .accept) (word_mem Acceptance.emptyStack.label)
  have next {ending line : List Char} {sec : Section} (breaks : ending ∈ lineBreak)
      (declares : line ∈ declaration sec) :
      [] ++ ending ++ [] ++ line ∈ lineEnds * declaration sec :=
    append_mem_mul (append_mem_mul (append_mem_mul bare breaks) noLines) declares
  have gap := append_mem_mul (append_mem_mul bare lf) twoLines
  have later := append_mem_mul (next lf name)
    (append_mem_mul (next crlf states) (append_mem_mul (next lf accept) nil_mem_one))
  have sections := append_mem_mul rules (append_mem_mul (append_mem_mul gap input) later)
  have whole := append_mem_mul (append_mem_mul noLines sections) (append_mem_mul noLines bare)
  refine (congrArg (· ∈ document _) ?_).mp whole
  decide +kernel

theorem ofText_of_document_hashes :
    hashes.Writable ∧ hashes.check = .ok () ∧ hashesText.utf8ByteSize ≤ sizeLimit ∧
      ofText hashesText = .ok hashes := by
  have writable : hashes.Writable := by
    have name : hashes.name.toList.all (fun c => c ≠ '#' && !isNewline c) = true := by decide
    have state : "p".toList.all isStateCharacter = true := by decide
    refine ⟨by decide, by decide, by simpa using name, ?_, ?_⟩
    · exact List.forall_mem_singleton.mpr ⟨by decide, List.all_eq_true.mp state⟩
    · exact List.forall_mem_singleton.mpr ⟨by decide, by decide⟩
  have passed : hashes.check = .ok () := by decide +kernel
  have small : hashesText.utf8ByteSize ≤ sizeLimit := by decide
  have described : hashes.DescribedBy [.rules hashes.rules, .input ['#'], .name "Hashes",
      .states ["p"], .accept .emptyStack] :=
    ⟨none, none, none, by decide, by decide, by decide, by decide⟩
  exact ⟨writable, passed, small,
    ofText_of_document writable passed described hashesText_mem small⟩

end Hashes

end Definition

end Pushdown
