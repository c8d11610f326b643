import Mathlib.Data.List.TakeWhile
import Pushdown.Proofs.Tokens

/-!
# Sections

Every section is read off what its layout writes. A list ends where its line does; the list of rules
ends where no rule stands on the next line that holds tokens.
-/

namespace Pushdown.Format

open Pattern

variable {xs rest text : List Char}

theorem afterState_token {t : String} {c : Char} {cs : List Char} (starts : t.toList = c :: cs)
    (other : isStateCharacter c = false) :
    ∀ xs ∈ Layout.token t, ∀ rest, AfterState (xs ++ rest) := by
  intro xs member rest d first
  rcases head?_token starts member rest d first with rfl | rfl | rfl
  · decide
  · decide
  · exact other

theorem afterState_comma : ∀ xs ∈ Layout.token ",", ∀ rest, AfterState (xs ++ rest) :=
  afterState_token (c := ',') rfl (by decide)

theorem anything_fits {form : Language Char} : ∀ xs ∈ form, ∀ rest, Anything (xs ++ rest) :=
  fun _ _ _ => trivial

/-! ### Lists -/

/-- A list is read up to the end of its line, if an item ends there and before a comma. -/
theorem reads_separatedBy {α : Type} {p : Pattern α} {form : α → Language Char}
    {fits : List Char → Prop} {a : α} {as : List α} (reads : ∀ b ∈ a :: as, Reads p b (form b) fits)
    (ends : ∀ rest, AtLineEnd rest → fits rest)
    (separates : ∀ xs ∈ Layout.token ",", ∀ rest, fits (xs ++ rest)) :
    Reads (p.separatedBy comma) (a :: as) (Layout.separated (Layout.token ",") form (a :: as))
      AtLineEnd := by
  intro _ member rest atEnd
  obtain ⟨first, written, more, others, rfl⟩ := Language.mem_mul.mp member
  rw [List.forall_mem_cons] at reads
  have items : ∀ b ∈ as, Reads (comma *> p) b (Layout.token "," * form b) fits := by
    exact fun b among => reads_comma.seqRight (reads.2 b among) anything_fits
  have advances : ∀ b ∈ as, Advances (Layout.token "," * form b) := by
    exact fun b _ => (advances_token (c := ',') rfl (by decide)).mul (form b)
  have follows : ∀ b ∈ as, ∀ xs ∈ Layout.token "," * form b, ∀ rest, fits (xs ++ rest) := by
    intro b _ _ member rest
    obtain ⟨xs, written, ys, -, rfl⟩ := Language.mem_mul.mp member
    rw [List.append_assoc]
    exact separates xs written (ys ++ rest)
  have stops : Stops (comma *> p) rest :=
    (atEnd.stops_literal (d := ',') rfl (by decide)).seqRight
  have series := Reads.series items advances follows (ends rest atEnd) stops others
  have fit : fits (more ++ rest) := by
    cases as with
    | nil =>
      obtain rfl := (Language.mem_one _).mp others
      exact ends rest atEnd
    | cons b as =>
      rw [List.map_cons, List.prod_cons] at others
      obtain ⟨next, item, later, -, rfl⟩ := Language.mem_mul.mp others
      rw [List.append_assoc]
      exact follows b List.mem_cons_self next item (later ++ rest)
  rw [List.append_assoc]
  exact ((reads.1 first written (more ++ rest) fit).map List.cons).seq series.leads

theorem reads_states {names : List State} (some : names ≠ [])
    (named : ∀ q ∈ names, IsStateName q) :
    Reads states names (Layout.separated (Layout.token ",") Layout.token names) AtLineEnd := by
  obtain ⟨q, names, rfl⟩ := List.exists_cons_of_ne_nil some
  exact reads_separatedBy (fun q among => reads_state (named q among))
    (fun _ => afterState_of_atLineEnd) afterState_comma

theorem reads_optionalStates {α : Type} (f : List State → α) {names : List State}
    (named : ∀ q ∈ names, IsStateName q) :
    Reads ((fun found => f (found.getD [])) <$> states.optional) (f names)
      (Layout.separated (Layout.token ",") Layout.token names) AtLineEnd := by
  intro xs member rest atEnd
  cases names with
  | nil =>
    obtain rfl := (Language.mem_one _).mp member
    have stops : Stops states rest := (atEnd.stops_state.map List.cons).seq
    exact (Leads.none stops).map _
  | cons q names =>
    exact (reads_states (List.cons_ne_nil q names) named xs member rest atEnd).some.map _

theorem reads_symbols {list : List Symbol} (writable : ∀ x ∈ list, IsWritableSymbol x) :
    Reads symbols list (Layout.separated (Layout.token ",") Layout.symbol list) AtLineEnd := by
  intro xs member rest atEnd
  cases list with
  | nil =>
    obtain rfl := (Language.mem_one _).mp member
    have stops : Stops (symbol.separatedBy comma) rest := (atEnd.stops_symbol.map List.cons).seq
    exact (Leads.none stops).map _
  | cons x list =>
    have reads : Reads (symbol.separatedBy comma) (x :: list)
        (Layout.separated (Layout.token ",") Layout.symbol (x :: list)) AtLineEnd :=
      reads_separatedBy (fun y among => reads_symbol (writable y among)) (fun _ _ => trivial)
        anything_fits
    exact (reads xs member rest atEnd).some.map _

/-! ### Rules -/

structure IsWritableRule (r : Rule) : Prop where
  origin : IsStateName r.origin
  destination : IsStateName r.destination
  reads : ∀ x ∈ r.reads, IsWritableSymbol x
  pops : ∀ x ∈ r.pops, IsWritableSymbol x
  pushes : ∀ x ∈ r.pushes, IsWritableSymbol x

theorem reads_rule {r : Rule} (writable : IsWritableRule r) :
    Reads rule r (Layout.rule r) AtLineEnd := by
  have arrow : Reads (literal "->") () (Layout.token "->") Anything :=
    reads_literal (c := '-') rfl (by decide)
  have origin := ((reads_state writable.origin).map Rule.mk).seqLeft reads_comma afterState_comma
  have read := (origin.seq (reads_read writable.reads) anything_fits).seqLeft reads_comma
    anything_fits
  have popped := (read.seq (reads_read writable.pops) anything_fits).seqLeft arrow anything_fits
  have destination := (popped.seq (reads_state writable.destination) anything_fits).seqLeft
    reads_comma afterState_comma
  exact destination.seq (reads_push writable.pushes) anything_fits

theorem isNewline_of_isStateCharacter {c : Char} (inName : isStateCharacter c = true) :
    isNewline c = false := by
  rw [← Bool.not_eq_true]
  intro newline
  rcases eq_of_isNewline newline with rfl | rfl <;> revert inName <;> decide

/-- A text that starts with the name of a state is inside of a line. -/
theorem inside_state {q : State} (named : IsStateName q) (member : xs ∈ Layout.token q)
    (rest : List Char) : Inside (xs ++ rest) := by
  obtain ⟨c, cs, starts, inName⟩ := named.head
  intro d first
  rw [skip_token starts (solid_of_isStateCharacter inName) member, starts] at first
  obtain rfl : c = d := Option.some.inj first
  exact isNewline_of_isStateCharacter inName

theorem inside_rule {r : Rule} (writable : IsWritableRule r) (member : xs ∈ Layout.rule r)
    (rest : List Char) : Inside (xs ++ rest) := by
  simp only [Layout.rule, mul_assoc] at member
  obtain ⟨origin, written, more, -, rfl⟩ := Language.mem_mul.mp member
  rw [List.append_assoc]
  exact inside_state writable.origin written (more ++ rest)

theorem atLineEnd_lineEnds (member : xs ∈ Layout.lineEnds) (rest : List Char) :
    AtLineEnd (xs ++ rest) := by
  obtain ⟨c, more, start, newline⟩ := skip_lineEnds member rest
  intro d first
  rw [start] at first
  obtain rfl : c = d := Option.some.inj first
  exact newline

/-- The ends of lines are read up to a text that is inside of a line. -/
theorem reads_newlines : Reads newlines () Layout.lineEnds Inside := by
  intro xs member rest inside
  obtain ⟨c, more, start, newline⟩ := skip_lineEnds member rest
  have some : skip (xs ++ rest) ≠ [] := by simp [start]
  exact (gap_lineEnds member .done).leads_newlines inside (atLineEnd_lineEnds member rest) some

theorem advances_lineEnds : Advances Layout.lineEnds := by
  intro xs member rest
  obtain ⟨c, more, start, -⟩ := skip_lineEnds member rest
  rw [start, List.length_cons, List.length_append]
  omega

theorem AtLineEnd.stops_rule (ends : AtLineEnd rest) : Stops rule rest :=
  (((ends.stops_state.map _).seqLeft.seq.seqLeft.seq.seqLeft.seq).seqLeft).seq

/-- What stands behind the rules: no rule comes on the next line that holds tokens. -/
def NoRuleNext (text : List Char) : Prop := Stops (newlines *> rule) text

theorem Gap.noRuleNext (gap : Gap rest text) (inside : Inside rest) (stops : Stops rule rest) :
    NoRuleNext text := by
  by_cases here : Inside text
  · exact here.stops_newlines.seqRight
  · obtain ⟨c, first, newline⟩ : ∃ c ∈ (skip text).head?, isNewline c = true := by
      simpa [Inside] using here
    have ends : AtLineEnd text := by
      intro d other
      obtain rfl : c = d := Option.some.inj (first.symm.trans other)
      exact newline
    have more : skip text ≠ [] := by
      intro none
      rw [none] at first
      cases first
    exact (gap.leads_newlines inside ends more).stopsRight stops

theorem reads_rules {list : List Rule} (writable : ∀ r ∈ list, IsWritableRule r) :
    Reads (newlines *> rule).many list (list.map fun r => Layout.lineEnds * Layout.rule r).prod
      fun rest => AtLineEnd rest ∧ NoRuleNext rest := by
  intro xs member rest fit
  have items : ∀ r ∈ list, Reads (newlines *> rule) r (Layout.lineEnds * Layout.rule r)
      AtLineEnd := by
    exact fun r among => reads_newlines.seqRight (reads_rule (writable r among))
      fun ys written => inside_rule (writable r among) written
  have follows : ∀ r ∈ list, ∀ xs ∈ Layout.lineEnds * Layout.rule r, ∀ rest,
      AtLineEnd (xs ++ rest) := by
    intro r _ _ member rest
    obtain ⟨xs, written, ys, -, rfl⟩ := Language.mem_mul.mp member
    rw [List.append_assoc]
    exact atLineEnd_lineEnds written (ys ++ rest)
  have series := Reads.series items (fun r _ => advances_lineEnds.mul (Layout.rule r)) follows
    fit.1 fit.2 member
  exact series.leads

/-! ### The other sections -/

def IsWritableName (name : String) : Prop :=
  name ≠ "" ∧ Text.trim name.toList = name.toList ∧
    ∀ c ∈ name.toList, c ≠ '#' ∧ isNewline c = false

theorem solid_of_not_isBlank {c : Char} (visible : Text.isBlank c = false) (hash : c ≠ '#') :
    IsSolid c := by
  refine ⟨?_, ?_, hash⟩ <;> rintro rfl <;> revert visible <;> decide

theorem inline_takeWhile (text : List Char) :
    ∀ c ∈ text.takeWhile isInline, c = ' ' ∨ c = '\t' := by
  intro c member
  simpa [isInline] using List.mem_takeWhile_imp member

/-- At the end of a line, blanks are followed by a comment or by that end. -/
theorem AtLineEnd.head?_dropWhile (atEnd : AtLineEnd rest) :
    ∀ c ∈ (rest.dropWhile isInline).head?, isNewline c = true ∨ c = '#' := by
  intro c first
  by_cases comment : c = '#'
  · exact Or.inr comment
  · have plain : (rest.dropWhile isInline).head? ≠ some '#' := by
      rw [first]
      exact fun same => comment (Option.some.inj same)
    have same : skip rest = rest.dropWhile isInline := if_neg plain
    exact Or.inl (atEnd c (by rwa [same]))

/-- A name is read with the blanks behind it, which trimming takes off again. -/
theorem reads_name {name : String} (writable : IsWritableName name) :
    Reads ((fun found => Section.name (String.ofList (Text.trim found))) <$> Format.text)
      (.name name) (Layout.token name) AtLineEnd := by
  obtain ⟨some, trims, inText⟩ := writable
  have some : name.toList ≠ [] := mt String.toList_eq_nil_iff.mp some
  have trimmed := trimmed_of_trim_eq some trims
  obtain ⟨c, cs, starts⟩ := List.exists_cons_of_ne_nil some
  have solid : IsSolid c := by
    refine solid_of_not_isBlank (trimmed.head c (by rw [starts]; rfl)) ?_
    exact (inText c (by rw [starts]; exact List.mem_cons_self)).1
  intro xs member rest atEnd s start
  rw [skip_token starts solid member] at start
  obtain ⟨blanks, blanks_eq⟩ : ∃ blanks, blanks = rest.takeWhile isInline := ⟨_, rfl⟩
  have parts : blanks ++ rest.dropWhile isInline = rest := by
    rw [blanks_eq, List.takeWhile_append_dropWhile]
  have inline : ∀ c ∈ blanks, c = ' ' ∨ c = '\t' := blanks_eq ▸ inline_takeWhile rest
  have inWord : ∀ c ∈ name.toList ++ blanks, (!isNewline c && c ≠ '#') = true := by
    intro c member
    rcases List.mem_append.mp member with old | new
    · simpa [and_comm] using inText c old
    · rcases inline c new with rfl | rfl <;> decide
  have after : ∀ c ∈ (rest.dropWhile isInline).head?, (!isNewline c && c ≠ '#') = false := by
    intro c first
    rcases atEnd.head?_dropWhile c first with newline | rfl
    · rw [newline]
      rfl
    · decide
  have whole : s.rest = name.toList ++ blanks ++ rest.dropWhile isInline := by
    rw [List.append_assoc, parts, start]
  obtain ⟨s', parsed, left⟩ := parse_characters whole (by simp [some]) inWord after
  have value : Text.trim (name.toList ++ blanks) = name.toList := by
    have none : blanks.reverse.dropWhile Text.isBlank = [] := by
      rw [List.dropWhile_eq_nil_iff]
      intro c member
      rcases inline c (List.mem_reverse.mp member) with rfl | rfl <;> decide
    simpa [none] using trimmed.trim_append [] blanks
  refine ⟨s', ?_, ?_⟩
  · show ((Pattern.characters fun c => !isNewline c && c ≠ '#').parse s).map _ = _
    rw [parsed]
    show Option.some (Section.name (String.ofList (Text.trim (name.toList ++ blanks))), s') = _
    rw [value, String.ofList_toList]
  · rw [left, ← skip_append inline, parts]

def bodyOf : Section.Kind → Pattern Section
  | .name => (fun found => .name (String.ofList (Text.trim found))) <$> Format.text
  | .states => .states <$> states
  | .input => .input <$> symbols
  | .stack => .stack <$> symbols
  | .initial => .initial <$> state
  | .finals => (fun found => .finals (found.getD [])) <$> states.optional
  | .accept => .accept <$> mode
  | .bottom => .bottom <$> symbol
  | .rules => .rules <$> (newlines *> rule).many

theorem reads_mode (m : Acceptance) : Reads mode m (Layout.token m.label) Anything := by
  intro xs member rest fit
  cases m with
  | finalState =>
    have leads := reads_literal (c := 'f') rfl (by decide) xs member rest fit
    exact (leads.map _).orLeft
  | emptyStack =>
    have start := skip_token (c := 'e') rfl (by decide) member rest
    have stops : Stops (literal Acceptance.finalState.label) (xs ++ rest) :=
      stops_literal (by rw [start]; rfl)
    have leads := reads_literal (c := 'e') rfl (by decide) xs member rest fit
    exact .orRight (stops.map _) (leads.map _).orLeft
  | either =>
    have start := skip_token (c := 'e') rfl (by decide) member rest
    have stops : Stops (literal Acceptance.finalState.label) (xs ++ rest) :=
      stops_literal (by rw [start]; rfl)
    have stops' : Stops (literal Acceptance.emptyStack.label) (xs ++ rest) :=
      stops_literal (by rw [start]; rfl)
    have leads := reads_literal (c := 'e') rfl (by decide) xs member rest fit
    exact .orRight (stops.map _) (.orRight (stops'.map _) (leads.map _))

def IsWritable : Section → Prop
  | .name text => IsWritableName text
  | .states names => names ≠ [] ∧ ∀ q ∈ names, IsStateName q
  | .input list | .stack list => ∀ x ∈ list, IsWritableSymbol x
  | .initial q => IsStateName q
  | .finals names => ∀ q ∈ names, IsStateName q
  | .accept _ => True
  | .bottom x => IsWritableSymbol x
  | .rules list => ∀ r ∈ list, IsWritableRule r

theorem reads_body {sec : Section} (writable : IsWritable sec) :
    Reads (bodyOf sec.kind) sec (Layout.body sec)
      fun rest => AtLineEnd rest ∧ NoRuleNext rest := by
  intro xs member rest fit
  cases sec with
  | name text => exact reads_name writable xs member rest fit.1
  | states names => exact (reads_states writable.1 writable.2).map _ xs member rest fit.1
  | input list | stack list => exact (reads_symbols writable).map _ xs member rest fit.1
  | initial q => exact (reads_state writable).map _ xs member rest (afterState_of_atLineEnd fit.1)
  | finals names => exact reads_optionalStates Section.finals writable xs member rest fit.1
  | accept m => exact (reads_mode m).map _ xs member rest trivial
  | bottom x => exact (reads_symbol writable).map _ xs member rest trivial
  | rules list => exact (reads_rules writable).map _ xs member rest fit

/-! ### Keywords -/

section Keywords

variable {kind other : Section.Kind}

theorem keyword_starts (kind : Section.Kind) :
    ∃ c cs, (kind.keyword ++ ":").toList = c :: cs ∧ IsSolid c := by
  cases kind <;> exact ⟨_, _, rfl, by decide⟩

theorem keyword_apart (apart : other ≠ kind) (rest : List Char) :
    (other.keyword ++ ":").toList.isPrefixOf ((kind.keyword ++ ":").toList ++ rest) = false := by
  cases kind <;> cases other <;> first | exact absurd rfl apart | rfl

theorem isStateName_keyword (kind : Section.Kind) : IsStateName kind.keyword := by
  have characters : kind.keyword.toList.all isStateCharacter = true := by cases kind <;> decide
  exact ⟨by cases kind <;> decide, List.all_eq_true.mp characters⟩

/-- A section of one kind is not taken for one of another. -/
theorem stops_declaration (member : xs ∈ Layout.token (kind.keyword ++ ":")) (apart : other ≠ kind)
    (body : Pattern Section) (rest : List Char) : Stops (declaration other body) (xs ++ rest) := by
  obtain ⟨c, cs, starts, solid⟩ := keyword_starts kind
  have stops : Stops (literal (other.keyword ++ ":")) (xs ++ rest) := by
    apply stops_literal
    rw [skip_token starts solid member]
    exact keyword_apart apart rest
  exact stops.seqRight

/-- A section of one of some kinds, tried in their order before those of a last kind. -/
def sectionOf (last : Section.Kind) : List Section.Kind → Pattern Section
  | [] => declaration last (bodyOf last)
  | kind :: kinds => declaration kind (bodyOf kind) <|> sectionOf last kinds

theorem anySection_eq : anySection =
    sectionOf .rules [.name, .states, .input, .stack, .initial, .finals, .accept, .bottom] := rfl

theorem leads_sectionOf {last : Section.Kind} {kinds : List Section.Kind} {sec : Section}
    {mid : List Char} (known : kind ∈ kinds ∨ kind = last)
    (member : xs ∈ Layout.token (kind.keyword ++ ":")) (leads : Leads (bodyOf kind) mid sec rest) :
    Leads (sectionOf last kinds) (xs ++ mid) sec rest := by
  obtain ⟨c, cs, starts, solid⟩ := keyword_starts kind
  have declared : Leads (declaration kind (bodyOf kind)) (xs ++ mid) sec rest :=
    (reads_literal starts solid xs member mid trivial).seqRight leads
  induction kinds with
  | nil =>
    obtain rfl := known.resolve_left List.not_mem_nil
    exact declared
  | cons first kinds ih =>
    by_cases same : first = kind
    · subst same
      exact declared.orLeft
    · have later : kind ∈ kinds ∨ kind = last := by
        rcases known with among | final
        · exact Or.inl ((List.mem_cons.mp among).resolve_left (Ne.symm same))
        · exact Or.inr final
      exact .orRight (stops_declaration member same _ mid) (ih later)

theorem leads_anySection {sec : Section} {mid : List Char}
    (member : xs ∈ Layout.token (sec.kind.keyword ++ ":"))
    (leads : Leads (bodyOf sec.kind) mid sec rest) : Leads anySection (xs ++ mid) sec rest := by
  rw [anySection_eq]
  refine leads_sectionOf ?_ member leads
  generalize sec.kind = kind
  cases kind <;> decide

theorem reads_anySection {sec : Section} (writable : IsWritable sec) :
    Reads anySection sec (Layout.declaration sec) fun rest => AtLineEnd rest ∧ NoRuleNext rest := by
  intro _ member rest fit
  obtain ⟨xs, keyword, ys, declares, rfl⟩ := Language.mem_mul.mp member
  rw [List.append_assoc]
  exact leads_anySection keyword (reads_body writable ys declares rest fit)

theorem stops_anySection (finished : skip text = []) : Stops anySection text := by
  have stops (kind : Section.Kind) : Stops (declaration kind (bodyOf kind)) text := by
    obtain ⟨c, cs, starts, -⟩ := keyword_starts kind
    have literal : Stops (literal (kind.keyword ++ ":")) text := by
      apply stops_literal
      rw [finished, starts]
      rfl
    exact literal.seqRight
  have all (last : Section.Kind) (kinds : List Section.Kind) :
      Stops (sectionOf last kinds) text := by
    induction kinds with
    | nil => exact stops last
    | cons kind kinds ih => exact (stops kind).orElse ih
  rw [anySection_eq]
  exact all _ _

/-- No rule starts where a section does: a colon stands where a rule has a comma. -/
theorem stops_rule_declaration {sec : Section} (member : xs ∈ Layout.declaration sec)
    (rest : List Char) : Stops rule (xs ++ rest) := by
  obtain ⟨_, keyword, ys, -, rfl⟩ := Language.mem_mul.mp member
  obtain ⟨before, blank, _, rfl, rfl⟩ := Language.mem_mul.mp keyword
  have name : before ++ sec.kind.keyword.toList ∈ Layout.token sec.kind.keyword :=
    Language.mem_mul.mpr ⟨before, blank, _, rfl, rfl⟩
  have after : AfterState (':' :: (ys ++ rest)) := by
    rintro _ ⟨⟩
    decide
  -- A keyword has the form of a state, so it is the comma that is missed.
  have leads := reads_state (isStateName_keyword sec.kind) _ name _ after
  have colon : Stops comma (':' :: (ys ++ rest)) := by
    apply stops_literal
    rw [skip_eq_self (by rintro _ ⟨⟩; decide)]
    rfl
  have split : before ++ (sec.kind.keyword ++ ":").toList ++ ys ++ rest =
      before ++ sec.kind.keyword.toList ++ ':' :: (ys ++ rest) := by
    simp
  rw [split]
  exact ((leads.map Rule.mk).stopsLeft colon).seq.seqLeft.seq.seqLeft.seq.seqLeft.seq

theorem inside_declaration {sec : Section} (member : xs ∈ Layout.declaration sec)
    (rest : List Char) : Inside (xs ++ rest) := by
  obtain ⟨_, keyword, ys, -, rfl⟩ := Language.mem_mul.mp member
  obtain ⟨before, blank, _, rfl, rfl⟩ := Language.mem_mul.mp keyword
  have name : before ++ sec.kind.keyword.toList ∈ Layout.token sec.kind.keyword :=
    Language.mem_mul.mpr ⟨before, blank, _, rfl, rfl⟩
  have inside := inside_state (isStateName_keyword sec.kind) name (':' :: (ys ++ rest))
  simpa using inside

end Keywords

end Pushdown.Format
