import Pushdown.Proofs.RoundTrip

/-!
# Legible definitions

Whatever a text is like, what is read off it has the form that the grammar has for it. The states
and the symbols that a definition uses are among those that it declares, so the form of the declared
ones is all that has to be followed through the patterns.
-/

namespace Pushdown

open Format

namespace Format

open Pattern

/-! ### What patterns yield -/

/-- Whatever a pattern reads has a property. -/
def Yields {α : Type} (p : Pattern α) (holds : α → Prop) : Prop :=
  ∀ s a s', p.parse s = some (a, s') → holds a

section Yields

variable {α β : Type} {p : Pattern α} {q : Pattern β} {P : α → Prop} {Q : β → Prop}

theorem Yields.map {f : α → β} (yields : Yields p P) (keeps : ∀ a, P a → Q (f a)) :
    Yields (f <$> p) Q := by
  intro s b s' parsed
  rw [parse_map, Option.map_eq_some_iff] at parsed
  obtain ⟨⟨a, rest⟩, first, same⟩ := parsed
  obtain ⟨rfl, -⟩ := Prod.mk.inj same
  exact keeps a (yields s a rest first)

theorem Yields.andThen (first : Yields p P) (second : Yields q Q) :
    Yields (p.andThen q) fun found => P found.1 ∧ Q found.2 := by
  intro s found s' parsed
  rw [parse_andThen, Option.bind_eq_some_iff] at parsed
  obtain ⟨⟨a, mid⟩, read, parsed⟩ := parsed
  obtain ⟨⟨b, rest⟩, read', same⟩ := Option.map_eq_some_iff.mp parsed
  obtain ⟨rfl, -⟩ := Prod.mk.inj same
  exact ⟨first s a mid read, second _ b rest read'⟩

theorem yields_anything (p : Pattern α) : Yields p fun _ => True := fun _ _ _ _ => trivial

theorem Yields.seqLeft (first : Yields p P) (q : Pattern β) : Yields (p <* q) P :=
  (first.andThen (yields_anything q)).map fun _ => And.left

theorem Yields.seqRight (second : Yields q Q) (p : Pattern α) : Yields (p *> q) Q :=
  ((yields_anything p).andThen second).map fun _ => And.right

theorem Yields.seq {p : Pattern (α → β)} {q : Pattern α} {P : (α → β) → Prop} {Q : α → Prop}
    {R : β → Prop} (first : Yields p P) (second : Yields q Q)
    (keeps : ∀ f a, P f → Q a → R (f a)) : Yields (p <*> q) R :=
  (first.andThen second).map fun (f, a) holds => keeps f a holds.1 holds.2

theorem Yields.orElse {p q : Pattern α} (first : Yields p P) (second : Yields q P) :
    Yields (p <|> q) P := by
  intro s a s' parsed
  rw [parse_orElse] at parsed
  cases read : p.parse s with
  | none => exact second s a s' (by rwa [read] at parsed)
  | some found => exact first s a s' (by rwa [read] at parsed ⊢)

theorem Yields.named (yields : Yields p P) (part : Part) : Yields (p.named part) P := yields

theorem Yields.located (yields : Yields p P) : Yields p.located fun found => P found.2 := by
  intro s found s' parsed
  obtain ⟨⟨a, rest⟩, read, same⟩ := Option.map_eq_some_iff.mp parsed
  obtain ⟨rfl, -⟩ := Prod.mk.inj same
  exact yields s a rest read

theorem Yields.collect (yields : Yields p P) (room : List Char) (s : Source) (found : List α)
    (before : ∀ a ∈ found, P a) : ∀ a ∈ (p.collect room s found).1, P a := by
  induction room generalizing s found with
  | nil => simpa [Pattern.collect] using before
  | cons _ room ih =>
    unfold Pattern.collect
    split
    · simpa using before
    · next a rest read =>
      exact ih rest _ (List.forall_mem_cons.mpr ⟨yields _ a rest read, before⟩)

theorem Yields.many (yields : Yields p P) : Yields p.many fun as => ∀ a ∈ as, P a := by
  intro s as s' parsed
  have values := Option.some.inj parsed
  have collected := yields.collect s.rest s [] nofun
  rwa [values] at collected

theorem Yields.separatedBy (yields : Yields p P) (separator : Pattern β) :
    Yields (p.separatedBy separator) fun as => ∀ a ∈ as, P a := by
  have first : Yields (List.cons <$> p) fun f => ∃ a, P a ∧ f = List.cons a :=
    yields.map fun a holds => ⟨a, holds, rfl⟩
  refine first.seq (yields.seqRight separator).many ?_
  rintro _ as ⟨a, holds, rfl⟩ later
  exact List.forall_mem_cons.mpr ⟨holds, later⟩

theorem Yields.optional (yields : Yields p P) :
    Yields p.optional fun found => ∀ a ∈ found, P a := by
  intro s found s' parsed
  unfold Pattern.optional at parsed
  dsimp only at parsed
  split at parsed
  · next a rest read =>
    obtain ⟨rfl, -⟩ := Prod.mk.inj (Option.some.inj parsed)
    rintro _ ⟨⟩
    exact yields s a rest read
  · obtain ⟨rfl, -⟩ := Prod.mk.inj (Option.some.inj parsed)
    nofun

theorem yields_characters (inClass : Char → Bool) :
    Yields (characters inClass) fun found => found ≠ [] ∧ ∀ c ∈ found, inClass c = true := by
  intro s found s' parsed
  unfold characters scan at parsed
  dsimp only at parsed
  split at parsed
  · cases parsed
  · next some =>
    obtain ⟨rfl, -⟩ := Prod.mk.inj (Option.some.inj parsed)
    exact ⟨fun none => some _ (Prod.ext none rfl), fun c member => List.mem_takeWhile_imp member⟩

end Yields

/-! ### What the grammar yields -/

theorem yields_state : Yields state IsStateName := by
  refine (yields_characters isStateCharacter).map ?_
  rintro found ⟨some, inClass⟩
  refine ⟨?_, ?_⟩
  · rw [Ne, String.ofList_eq_empty_iff]
    exact some
  · rwa [String.toList_ofList]

theorem yields_symbol : Yields symbol IsWritableSymbol := by
  intro s x s' parsed
  change readSymbol s = some (x, s') at parsed
  unfold readSymbol at parsed
  split at parsed
  · next c _ =>
    split at parsed
    · cases parsed
    · next plain =>
      obtain ⟨rfl, -⟩ := Prod.mk.inj (Option.some.inj parsed)
      simpa [IsWritableSymbol] using plain
  · next c _ _ =>
    split at parsed
    · cases parsed
    · next plain =>
      obtain ⟨rfl, -⟩ := Prod.mk.inj (Option.some.inj parsed)
      rw [Bool.not_eq_true] at plain
      refine ⟨ne_of_not_isReserved plain rfl, ?_⟩
      rw [← Bool.not_eq_true]
      intro newline
      rcases eq_of_isNewline newline with rfl | rfl <;>
        exact absurd rfl (ne_of_not_isReserved plain rfl)
  · cases parsed

theorem trim_subset (text : List Char) : Text.trim text ⊆ text := by
  intro c member
  unfold Text.trim at member
  rw [List.mem_reverse] at member
  have inside := (List.dropWhile_sublist _).subset member
  rw [List.mem_reverse] at inside
  exact (List.dropWhile_sublist _).subset inside

theorem trim_prefix (text : List Char) : Text.trim text <+: text.dropWhile Text.isBlank := by
  have front := (List.dropWhile_suffix Text.isBlank
    (l := (text.dropWhile Text.isBlank).reverse)).reverse
  rwa [List.reverse_reverse] at front

theorem trimmed_trim {text : List Char} (some : Text.trim text ≠ []) :
    Trimmed (Text.trim text) := by
  refine ⟨some, ?_, ?_⟩
  · intro c first
    obtain ⟨tail, whole⟩ := trim_prefix text
    have kept := List.head?_dropWhile_not Text.isBlank text
    rwa [← whole, List.head?_append_of_ne_nil _ some, first] at kept
  · intro c final
    have kept := List.head?_dropWhile_not Text.isBlank (text.dropWhile Text.isBlank).reverse
    rw [Text.trim, List.getLast?_reverse] at final
    rwa [final] at kept

theorem trim_trim (text : List Char) : Text.trim (Text.trim text) = Text.trim text := by
  by_cases none : Text.trim text = []
  · rw [none]
    rfl
  · simpa using (trimmed_trim none).trim_append [] []

/-- What a section declares has the form that the grammar has for it; a name may be empty. -/
def IsLegible : Section → Prop
  | .name name => Text.trim name.toList = name.toList ∧
    ∀ c ∈ name.toList, c ≠ '#' ∧ isNewline c = false
  | .states names => ∀ q ∈ names, IsStateName q
  | .input list | .stack list => ∀ x ∈ list, IsWritableSymbol x
  | _ => True

theorem yields_symbols : Yields symbols fun list => ∀ x ∈ list, IsWritableSymbol x := by
  refine (yields_symbol.separatedBy comma).optional.map ?_
  rintro (_ | list) written
  · exact nofun
  · exact written list rfl

theorem yields_text :
    Yields Format.text fun found => ∀ c ∈ found, c ≠ '#' ∧ isNewline c = false := by
  intro s found s' parsed c member
  have inClass := (yields_characters _ s found s' parsed).2 c member
  simpa [and_comm] using inClass

theorem yields_body (kind : Section.Kind) : Yields (bodyOf kind) IsLegible := by
  cases kind with
  | name =>
    refine yields_text.map fun found inText => ?_
    rw [IsLegible, String.toList_ofList]
    exact ⟨trim_trim found, fun c member => inText c (trim_subset found member)⟩
  | states => exact (yields_state.separatedBy comma).map fun _ named => named
  | input | stack => exact yields_symbols.map fun _ written => written
  | initial | finals | accept | bottom | rules =>
    exact (yields_anything _).map fun _ _ => trivial

theorem Yields.anySection {P : Section → Prop} (bodies : ∀ kind, Yields (bodyOf kind) P) :
    Yields Format.anySection P := by
  have yields (last : Section.Kind) (kinds : List Section.Kind) :
      Yields (sectionOf last kinds) P := by
    induction kinds with
    | nil => exact (bodies last).seqRight _
    | cons kind kinds ih => exact ((bodies kind).seqRight _).orElse ih
  rw [anySection_eq]
  exact yields _ _

/-- What holds of the sections that may be read holds of all sections of a text. -/
theorem forall_of_sectionsOf {P : Section → Prop} (bodies : ∀ kind, Yields (bodyOf kind) P)
    {text : List Char} {found : List (Span × Section)} (read : sectionsOf text = .ok found) :
    ∀ entry ∈ found, P entry.2 := by
  have line : Yields sectionLine fun entry => P entry.2 :=
    (Yields.anySection bodies).located.seqLeft ending
  have whole : Yields program fun found => ∀ entry ∈ found, P entry.2 := by
    rw [program_eq]
    exact ((line.many.seqRight _).seqLeft _).named _
  unfold sectionsOf at read
  split at read
  · next sections rest parsed =>
    obtain rfl := Except.ok.inj read
    exact whole _ _ rest parsed
  · cases read

theorem legible_of_sectionsOf {text : List Char} {found : List (Span × Section)}
    (read : sectionsOf text = .ok found) : ∀ entry ∈ found, IsLegible entry.2 :=
  forall_of_sectionsOf yields_body read

end Format

namespace Definition

variable {d : Definition} {text : String}

/-- A text is read in four steps, if it is not too large. -/
theorem ofText_eq_ok : ofText text = .ok d ↔ text.utf8ByteSize ≤ sizeLimit ∧
    ∃ found, sectionsOf (Text.trim text.toList) = .ok found ∧
      checkRepetition (Text.trim text.toList) found = .ok () ∧
      ofSections (found.map Prod.snd) = .ok d ∧ d.check = .ok () := by
  unfold ofText
  by_cases small : text.utf8ByteSize ≤ sizeLimit
  · rw [if_neg (Nat.not_lt.mpr small), bind_eq_ok, and_iff_right small]
    refine exists_congr fun found => ?_
    rw [mapError_eq_ok, check_then_eq_ok, mapError_eq_ok, bind_eq_ok]
    refine and_congr_right fun _ => and_congr_right fun _ => ?_
    constructor
    · rintro ⟨d', built, passed⟩
      rw [check_then_eq_ok] at passed
      obtain ⟨passed, same⟩ := passed
      obtain rfl := Except.ok.inj same
      exact ⟨built, passed⟩
    · rintro ⟨built, passed⟩
      exact ⟨d, built, check_then_eq_ok.mpr ⟨passed, rfl⟩⟩
  · rw [if_pos (Nat.lt_of_not_le small)]
    exact iff_of_false nofun fun ⟨fits, _⟩ => small fits

theorem require_eq_ok {α : Type} {kind : Section.Kind} {found : Option α} {a : α} :
    require kind found = .ok a ↔ found = some a := by
  cases found <;> simp [require]

/-- The names that a definition declares come from its sections. -/
theorem ofSections_eq_ok {sections : List Section} (built : ofSections sections = .ok d) :
    .name d.name ∈ sections ∧ .states d.states ∈ sections ∧ .input d.inputAlphabet ∈ sections ∧
      (.stack d.stackAlphabet ∈ sections ∨ d.stackAlphabet = []) := by
  unfold ofSections at built
  obtain ⟨name, hasName, built⟩ := bind_eq_ok.mp built
  obtain ⟨states, hasStates, built⟩ := bind_eq_ok.mp built
  obtain ⟨input, hasInput, built⟩ := bind_eq_ok.mp built
  obtain ⟨acceptance, -, built⟩ := bind_eq_ok.mp built
  obtain ⟨rules, -, built⟩ := bind_eq_ok.mp built
  obtain rfl := Except.ok.inj built
  rw [require_eq_ok] at hasName hasStates hasInput
  obtain ⟨fromName, fromStates, fromInput, fromStack, -⟩ := picks
  refine ⟨fromName.mem_of_findSome? hasName, fromStates.mem_of_findSome? hasStates,
    fromInput.mem_of_findSome? hasInput, ?_⟩
  cases stack : sections.findSome? Section.stack? with
  | none => exact Or.inr rfl
  | some symbols => exact Or.inl (fromStack.mem_of_findSome? stack)

def stateNames (d : Definition) : List State :=
  d.states ++ d.finalStates ++ [d.initialState] ++
    d.rules.flatMap fun r => [r.origin, r.destination]

def symbolNames (d : Definition) : List Symbol :=
  d.inputAlphabet ++ d.stackAlphabet ++ d.bottom.toList ++
    d.rules.flatMap fun r => r.reads.toList ++ r.pops.toList ++ r.pushes

structure Legible (d : Definition) : Prop where
  wellFormed : d.WellFormed
  states : ∀ q ∈ d.stateNames, q ∈ d.states ∧ q ≠ "" ∧ ∀ c ∈ q.toList, c.isAlphanum ∨ c = '_'
  symbols : ∀ x ∈ d.symbolNames, x ≠ '\x27' ∧ x ≠ '\r' ∧ x ≠ '\n'
  name_trimmed : Text.trim d.name.toList = d.name.toList
  name_characters : ∀ c ∈ d.name.toList, c ≠ '#' ∧ c ≠ '\r' ∧ c ≠ '\n'

theorem WellFormed.mem_states (wellFormed : d.WellFormed) : ∀ q ∈ d.stateNames, q ∈ d.states := by
  intro q named
  simp only [stateNames, List.mem_append, List.mem_flatMap, List.mem_cons, List.not_mem_nil,
    or_false] at named
  rcases named with ((declared | final) | rfl) | ⟨r, member, rfl | rfl⟩
  · exact declared
  · exact wellFormed.rooted.finals q final
  · exact wellFormed.rooted.initial
  · exact (wellFormed.rooted.ends r member).1
  · exact (wellFormed.rooted.ends r member).2

theorem WellFormed.mem_alphabets (wellFormed : d.WellFormed) :
    ∀ x ∈ d.symbolNames, x ∈ d.inputAlphabet ∨ x ∈ d.stackAlphabet := by
  intro x named
  simp only [symbolNames, List.mem_append, Option.mem_toList, List.mem_flatMap] at named
  rcases named with ((input | stack) | bottom) | ⟨r, member, (reads | pops) | pushes⟩
  · exact Or.inl input
  · exact Or.inr stack
  · exact Or.inr (wellFormed.spelled.bottom x bottom)
  · exact Or.inl (wellFormed.spelled.reads r member x reads)
  · exact Or.inr (wellFormed.spelled.pops r member x pops)
  · exact Or.inr (wellFormed.spelled.pushes r member x pushes)

theorem not_isNewline_iff {c : Char} : isNewline c = false ↔ c ≠ '\r' ∧ c ≠ '\n' := by
  simp [isNewline, and_comm]

theorem Legible.of_ofText (read : ofText text = .ok d) : d.Legible := by
  obtain ⟨-, found, sections, -, built, passed⟩ := ofText_eq_ok.mp read
  have wellFormed := check_eq_ok.mp passed
  have legible : ∀ sec ∈ found.map Prod.snd, IsLegible sec := by
    intro sec member
    obtain ⟨entry, among, rfl⟩ := List.mem_map.mp member
    exact legible_of_sectionsOf sections entry among
  -- The check has put all names among the declared ones, and sections hold those.
  obtain ⟨name, states, input, stack⟩ := ofSections_eq_ok built
  have stacked : ∀ x ∈ d.stackAlphabet, IsWritableSymbol x := by
    rcases stack with declared | none
    · exact legible _ declared
    · rw [none]
      exact nofun
  refine ⟨wellFormed, ?_, ?_, (legible _ name).1, ?_⟩
  · intro q named
    have declared := wellFormed.mem_states q named
    obtain ⟨some, characters⟩ := legible _ states q declared
    refine ⟨declared, some, fun c inside => ?_⟩
    simpa [isStateCharacter] using characters c inside
  · intro x named
    have writable : IsWritableSymbol x :=
      (wellFormed.mem_alphabets x named).elim (legible _ input x) (stacked x)
    exact ⟨writable.1, not_isNewline_iff.mp writable.2⟩
  · intro c inside
    obtain ⟨hash, newline⟩ := (legible _ name).2 c inside
    exact ⟨hash, not_isNewline_iff.mp newline⟩

/-- A legible definition can be written, unless it has no name. -/
theorem Legible.writable (legible : d.Legible) (named : d.name ≠ "") : d.Writable where
  name_ne_empty := named
  name_trimmed := legible.name_trimmed
  name_characters c inside :=
    ⟨(legible.name_characters c inside).1,
      not_isNewline_iff.mpr (legible.name_characters c inside).2⟩
  states q declared := by
    have among : q ∈ d.stateNames := by simp [stateNames, declared]
    obtain ⟨-, some, characters⟩ := legible.states q among
    exact ⟨some, fun c inside => by simpa [isStateCharacter] using characters c inside⟩
  symbols x declared := by
    have among : x ∈ d.symbolNames := by
      rw [symbolNames, List.append_assoc]
      exact List.mem_append_left _ declared
    obtain ⟨quote, lines⟩ := legible.symbols x among
    exact ⟨quote, not_isNewline_iff.mpr lines⟩

end Definition

end Pushdown
