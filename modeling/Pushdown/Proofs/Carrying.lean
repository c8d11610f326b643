import Pushdown.Proofs.Continuations
import Pushdown.Proofs.Progress

/-!
# Carrying a text on

On a text and on a longer one that goes on where it is over, every pattern of the grammar reads the
same values. One lemma for each combinator carries this from the words of the grammar to sections.
-/

namespace Pushdown.Format

open Pattern

variable {α β : Type} {tail text text' rest rest' : List Char}

/-! ### Patterns on two texts -/

/-- On two texts that are related, a pattern stops, or it reads one value and leaves texts that are
related again. -/
def Carries (rel : List Char → List Char → Prop) (p : Pattern α) : Prop :=
  ∀ text text', rel text text' → Stops p text ∧ Stops p text' ∨
    ∃ a rest rest', Leads p text a rest ∧ Leads p text' a rest' ∧ rel rest rest'

section Carries

variable {rel : List Char → List Char → Prop} {p : Pattern α} {q : Pattern β}

theorem Carries.map (carries : Carries rel p) (f : α → β) : Carries rel (f <$> p) := by
  intro text text' related
  rcases carries text text' related with ⟨stops, stops'⟩ | ⟨a, rest, rest', leads, leads', left⟩
  · exact Or.inl ⟨stops.map f, stops'.map f⟩
  · exact Or.inr ⟨f a, rest, rest', leads.map f, leads'.map f, left⟩

theorem Carries.andThen (first : Carries rel p) (second : Carries rel q) :
    Carries rel (p.andThen q) := by
  intro text text' related
  rcases first text text' related with ⟨stops, stops'⟩ | ⟨a, mid, mid', leads, leads', between⟩
  · exact Or.inl ⟨stops.andThen, stops'.andThen⟩
  · rcases second mid mid' between with ⟨stops, stops'⟩ | ⟨b, rest, rest', later, later', left⟩
    · exact Or.inl ⟨leads.stops_andThen stops, leads'.stops_andThen stops'⟩
    · exact Or.inr ⟨(a, b), rest, rest', leads.andThen later, leads'.andThen later', left⟩

theorem Carries.seq {p : Pattern (α → β)} {q : Pattern α} (first : Carries rel p)
    (second : Carries rel q) : Carries rel (p <*> q) :=
  (first.andThen second).map _

theorem Carries.seqLeft (first : Carries rel p) (second : Carries rel q) : Carries rel (p <* q) :=
  (first.andThen second).map _

theorem Carries.seqRight (first : Carries rel p) (second : Carries rel q) :
    Carries rel (p *> q) :=
  (first.andThen second).map _

theorem Carries.orElse {p q : Pattern α} (first : Carries rel p) (second : Carries rel q) :
    Carries rel (p <|> q) := by
  intro text text' related
  rcases first text text' related with ⟨stops, stops'⟩ | ⟨a, rest, rest', leads, leads', left⟩
  · rcases second text text' related with ⟨none, none'⟩ | ⟨a, rest, rest', leads, leads', left⟩
    · exact Or.inl ⟨stops.orElse none, stops'.orElse none'⟩
    · exact Or.inr ⟨a, rest, rest', .orRight stops leads, .orRight stops' leads', left⟩
  · exact Or.inr ⟨a, rest, rest', leads.orLeft, leads'.orLeft, left⟩

theorem Carries.optional (carries : Carries rel p) : Carries rel p.optional := by
  intro text text' related
  rcases carries text text' related with ⟨stops, stops'⟩ | ⟨a, rest, rest', leads, leads', left⟩
  · exact Or.inr ⟨none, text, text', .none stops, .none stops', related⟩
  · exact Or.inr ⟨some a, rest, rest', leads.some, leads'.some, left⟩

theorem Takes.length_skip_lt {a : α} (takes : Takes 1 p) (leads : Leads p text a rest) :
    (skip rest).length < (skip text).length := by
  obtain ⟨s', parsed, left⟩ := leads ⟨0, skip text⟩ rfl
  have taken : s'.rest.length + 1 ≤ (skip text).length := takes _ a s' parsed
  have blanks := length_skip_le s'.rest
  rw [← left]
  omega

/-- Values are read off two texts one by one. -/
theorem Carries.series (carries : Carries rel p) (takes : Takes 1 p)
    (closed : ∀ text text', rel text text' → rel (skip text) (skip text'))
    (related : rel text text') :
    ∃ as rest rest', Series p as text rest ∧ Series p as text' rest' ∧ rel rest rest' := by
  -- By what is left of the first text, of which every value takes something.
  induction size : (skip text).length using Nat.strong_induction_on generalizing text text' with
  | _ n ih =>
    rcases carries text text' related with ⟨stops, stops'⟩ | ⟨a, mid, mid', leads, leads', between⟩
    · exact ⟨[], text, text', .stop stops, .stop stops', related⟩
    · have shorter := takes.length_skip_lt leads
      have shorter' := takes.length_skip_lt leads'
      have fewer : (skip (skip mid)).length < n := by rwa [skip_skip, ← size]
      obtain ⟨as, rest, rest', series, series', left⟩ := ih _ fewer (closed mid mid' between) rfl
      exact ⟨a :: as, rest, rest', .next (leads.congr (skip_skip mid).symm) shorter series,
        .next (leads'.congr (skip_skip mid').symm) shorter' series', left⟩

theorem Carries.many (carries : Carries rel p) (takes : Takes 1 p)
    (closed : ∀ text text', rel text text' → rel (skip text) (skip text')) :
    Carries rel p.many := by
  intro text text' related
  obtain ⟨as, rest, rest', series, series', left⟩ := carries.series takes closed related
  exact Or.inr ⟨as, rest, rest', series.leads, series'.leads, left⟩

end Carries

/-! ### Words of the grammar -/

section Words

theorem leads_literal {t : String} (starts : skip text = t.toList ++ rest) :
    Leads (literal t) text () rest := by
  intro s start
  refine ⟨s.drop t.toList.length, ?_, ?_⟩
  · simp [literal, scan, Source.dropText?, start, starts]
  · simp [Source.drop, start, starts]

theorem Trail.head (trail : Trail tail) :
    ∀ c ∈ tail.head?, isInline c = true ∨ isNewline c = true := by
  intro c first
  have turns := trail.turns
  obtain ⟨more, rfl⟩ := List.head?_eq_some_iff.mp first
  cases inline : isInline c with
  | true => exact Or.inl rfl
  | false =>
    rw [List.dropWhile_cons, inline] at turns
    exact Or.inr (turns c rfl)

/-- A word does not start in a text and end in the tail behind it. -/
theorem Trail.prefix_of_append (trail : Trail tail) {word : List Char}
    (inWord : ∀ c ∈ word, isInline c = false ∧ isNewline c = false)
    (starts : word <+: text ++ tail) : word <+: text := by
  rcases List.prefix_or_prefix_of_prefix starts (List.prefix_append text tail) with inside | longer
  · exact inside
  · obtain ⟨ended, rfl⟩ := longer
    rw [List.prefix_append_right_inj] at starts
    cases ended with
    | nil => rw [List.append_nil]
    | cons c ended =>
      obtain ⟨more, rfl⟩ := starts
      obtain ⟨inline, newline⟩ := inWord c (by simp)
      rcases trail.head c rfl with blank | ends
      · rw [inline] at blank
        cases blank
      · rw [newline] at ends
        cases ends

theorem Trail.carries_literal (trail : Trail tail) {t : String} {c : Char} {cs : List Char}
    (starts : t.toList = c :: cs)
    (inWord : t.toList.all (fun d => !isInline d && !isNewline d) = true) :
    Carries (Continues tail) (literal t) := by
  have inWord : ∀ d ∈ t.toList, isInline d = false ∧ isNewline d = false := by simpa using inWord
  intro text text' continues
  rcases continues.cases_line with ⟨ends, ends'⟩ | ⟨d, more, -, first, first'⟩
  · have other := (inWord c (by simp [starts])).2
    exact Or.inl ⟨ends.stops_literal starts other, ends'.stops_literal starts other⟩
  · by_cases here : t.toList <+: d :: more
    · obtain ⟨rest, split⟩ := here
      refine Or.inr ⟨(), rest, rest ++ tail, leads_literal (first.trans split.symm), ?_,
        trail.continues rest⟩
      apply leads_literal
      rw [first', ← split, List.append_assoc]
    · have other : ¬ t.toList <+: d :: more ++ tail :=
        fun longer => here (trail.prefix_of_append inWord longer)
      rw [← List.isPrefixOf_iff_prefix, Bool.not_eq_true] at here other
      exact Or.inl ⟨stops_literal (by rwa [first]), stops_literal (by rwa [first'])⟩

/-! ### Names of states, and symbols -/

/-- What stands at the head of a text in a class of characters, and what follows it. -/
theorem exists_word {inClass : Char → Bool} {c : Char} (inWord : inClass c = true)
    (more : List Char) : ∃ word rest, c :: more = word ++ rest ∧ word ≠ [] ∧
      (∀ d ∈ word, inClass d = true) ∧ ∀ d ∈ rest.head?, inClass d = false := by
  refine ⟨(c :: more).takeWhile inClass, (c :: more).dropWhile inClass, ?_, ?_, ?_, ?_⟩
  · rw [List.takeWhile_append_dropWhile]
  · simp [inWord]
  · exact fun d member => List.mem_takeWhile_imp member
  · intro d first
    have kept := List.head?_dropWhile_not inClass (c :: more)
    rwa [first] at kept

theorem leads_characters {inClass : Char → Bool} {word : List Char}
    (starts : skip text = word ++ rest) (some : word ≠ [])
    (inside : ∀ c ∈ word, inClass c = true) (ends : ∀ c ∈ rest.head?, inClass c = false) :
    Leads (characters inClass) text word rest := by
  intro s start
  obtain ⟨s', parsed, left⟩ := parse_characters (start.trans starts) some inside ends
  exact ⟨s', parsed, by rw [left]⟩

theorem stops_characters {inClass : Char → Bool} {c : Char} {more : List Char}
    (starts : skip text = c :: more) (other : inClass c = false) :
    Stops (characters inClass) text := by
  intro s start
  simp [characters, scan, Source.takeWhile, start, starts, other]

theorem Trail.carries_characters (trail : Trail tail) {inClass : Char → Bool}
    (excludes : ∀ c, isInline c = true ∨ isNewline c = true → inClass c = false) :
    Carries (Continues tail) (characters inClass) := by
  intro text text' continues
  rcases continues.cases_line with ⟨ends, ends'⟩ | ⟨c, more, -, first, first'⟩
  · have other : ∀ c, isNewline c = true → inClass c = false :=
      fun c newline => excludes c (Or.inr newline)
    exact Or.inl ⟨ends.stops_characters other, ends'.stops_characters other⟩
  · cases inWord : inClass c with
    | false => exact Or.inl ⟨stops_characters first inWord, stops_characters first' inWord⟩
    | true =>
      obtain ⟨word, rest, split, some, inside, ends⟩ := exists_word inWord more
      have ends' : ∀ d ∈ (rest ++ tail).head?, inClass d = false := by
        intro d head
        cases rest with
        | nil => exact excludes d (trail.head d head)
        | cons e rest => exact ends d head
      rw [split] at first first'
      rw [List.append_assoc] at first'
      exact Or.inr ⟨word, rest, rest ++ tail, leads_characters first some inside ends,
        leads_characters first' some inside ends', trail.continues rest⟩

theorem Trail.carries_state (trail : Trail tail) : Carries (Continues tail) state := by
  refine (trail.carries_characters ?_).map String.ofList
  intro c char
  simp only [isInline, isNewline, Bool.or_eq_true, decide_eq_true_eq] at char
  rcases char with (rfl | rfl) | rfl | rfl <;> decide

section Symbols

variable {c : Char} {more : List Char}

theorem leads_quoted (first : skip text = '\x27' :: c :: '\x27' :: more)
    (inQuotes : c ≠ '\x27' ∧ isNewline c = false) : Leads symbol text c more := by
  intro s start
  refine ⟨s.drop 3, ?_, by simp [Source.drop, start, first]⟩
  show readSymbol s = _
  simp [readSymbol, start, first, inQuotes]

/-- Without a character in quotes, a quote is nothing. -/
theorem stops_open (first : skip text = '\x27' :: more)
    (other : ∀ c later, more = c :: '\x27' :: later → c = '\x27' ∨ isNewline c = true) :
    Stops symbol text := by
  intro s start
  show readSymbol s = none
  unfold readSymbol
  rw [start, first]
  split
  · next c later same =>
    rw [if_pos]
    simpa using other c later (List.cons.inj same).2
  · next c later _ same =>
    obtain ⟨rfl, -⟩ := List.cons.inj same
    rfl
  · rfl

theorem leads_bare (first : skip text = c :: more) (bare : c ≠ '\x27')
    (free : isReserved c = false) : Leads symbol text c more := by
  intro s start
  refine ⟨s.drop 1, ?_, by simp [Source.drop, start, first]⟩
  show readSymbol s = _
  simp [readSymbol, start, first, bare, free]

theorem stops_bare (first : skip text = c :: more) (bare : c ≠ '\x27')
    (reserved : isReserved c = true) : Stops symbol text := by
  intro s start
  show readSymbol s = none
  simp [readSymbol, start, first, bare, reserved]

end Symbols

/-- A tail does not close a quote that it did not open. -/
theorem Trail.isNewline_of_quote (trail : Trail tail) {more later : List Char} {c : Char}
    (other : ∀ d before, more ≠ d :: '\x27' :: before)
    (closes : more ++ tail = c :: '\x27' :: later) : isNewline c = true := by
  match more, other, closes with
  | [], _, closes =>
    rcases trail.head c (by rw [← List.nil_append tail, closes]; rfl) with blank | newline
    · have turns := trail.turns
      rw [← List.nil_append tail, closes, List.dropWhile_cons, if_pos blank] at turns
      exact absurd (turns '\x27' rfl) (by decide)
    · exact newline
  | [d], _, closes =>
    have same : tail = '\x27' :: later := (List.cons.inj closes).2
    exact absurd (trail.head '\x27' (by rw [same]; rfl)) (by decide)
  | d :: e :: more, other, closes =>
    obtain ⟨-, closes⟩ := List.cons.inj closes
    obtain ⟨rfl, -⟩ := List.cons.inj closes
    exact absurd rfl (other d more)

theorem Trail.carries_quoted (trail : Trail tail) {more : List Char}
    (first : skip text = '\x27' :: more) (first' : skip text' = '\x27' :: (more ++ tail)) :
    Stops symbol text ∧ Stops symbol text' ∨ ∃ a rest rest',
      Leads symbol text a rest ∧ Leads symbol text' a rest' ∧ Continues tail rest rest' := by
  by_cases closed : ∃ c later, more = c :: '\x27' :: later
  · obtain ⟨c, later, rfl⟩ := closed
    by_cases bad : c = '\x27' ∨ isNewline c = true
    · refine Or.inl ⟨stops_open first ?_, stops_open first' ?_⟩ <;>
      · rintro _ _ ⟨⟩
        exact bad
    · rw [not_or, Bool.not_eq_true] at bad
      exact Or.inr ⟨c, later, later ++ tail, leads_quoted first bad, leads_quoted first' bad,
        trail.continues later⟩
  · have other : ∀ c later, more ≠ c :: '\x27' :: later :=
      fun c later same => closed ⟨c, later, same⟩
    exact Or.inl ⟨stops_open first fun c later same => absurd same (other c later),
      stops_open first' fun c later closes => Or.inr (trail.isNewline_of_quote other closes)⟩

theorem Trail.carries_symbol (trail : Trail tail) : Carries (Continues tail) symbol := by
  intro text text' continues
  rcases continues.cases_line with ⟨ends, ends'⟩ | ⟨c, more, -, first, first'⟩
  · exact Or.inl ⟨ends.stops_symbol, ends'.stops_symbol⟩
  · rw [List.cons_append] at first'
    by_cases quote : c = '\x27'
    · subst quote
      exact trail.carries_quoted first first'
    · cases reserved : isReserved c with
      | true => exact Or.inl ⟨stops_bare first quote reserved, stops_bare first' quote reserved⟩
      | false =>
        exact Or.inr ⟨c, more, more ++ tail, leads_bare first quote reserved,
          leads_bare first' quote reserved, trail.continues more⟩

/-! ### Names -/

theorem trim_append_blanks {before : List Char} (text : List Char)
    (blank : ∀ c ∈ before, Text.isBlank c = true) :
    Text.trim (text ++ before) = Text.trim text := by
  have none : before.dropWhile Text.isBlank = [] := List.dropWhile_eq_nil_iff.mpr blank
  have back : ∀ c ∈ before.reverse, Text.isBlank c = true :=
    fun c member => blank c (List.mem_reverse.mp member)
  unfold Text.trim
  rw [List.dropWhile_append]
  split
  · next ended => rw [none, List.isEmpty_iff.mp ended]
  · rw [List.reverse_append, List.dropWhile_append_of_pos back]

/-- A name takes in the blanks behind it, and trimming takes them off again. -/
theorem Trail.carries_name (trail : Trail tail) : Carries (Continues tail) (bodyOf .name) := by
  rw [bodyOf_name]
  intro text text' continues
  rcases continues.cases_line with ⟨ends, ends'⟩ | ⟨c, more, newline, first, first'⟩
  · have other : ∀ c, isNewline c = true → isNameCharacter c = false :=
      fun c newline => by rw [isNameCharacter, newline]; rfl
    exact Or.inl ⟨(ends.stops_characters other).map _, (ends'.stops_characters other).map _⟩
  · have comment : c ≠ '#' := (solid_of_head?_skip text c (by rw [first]; rfl)).2.2
    have inName : isNameCharacter c = true := by simp [isNameCharacter, newline, comment]
    obtain ⟨word, rest, split, some, inside, ends⟩ := exists_word inName more
    rw [split] at first first'
    by_cases ended : rest = []
    · -- Where the text is over, the name goes on as far as the end of a line in the tail.
      subst ended
      rw [List.append_nil] at first first'
      have inline := inline_takeWhile tail
      have parts := List.takeWhile_append_dropWhile (p := isInline) (l := tail)
      have longer : ∀ d ∈ word ++ tail.takeWhile isInline, isNameCharacter d = true := by
        intro d member
        rcases List.mem_append.mp member with old | new
        · exact inside d old
        · rcases inline d new with rfl | rfl <;> decide
      have turns : ∀ d ∈ (tail.dropWhile isInline).head?, isNameCharacter d = false := by
        intro d head
        rw [isNameCharacter, trail.turns d head]
        rfl
      have first'' : skip text' = word ++ tail.takeWhile isInline ++ tail.dropWhile isInline := by
        rw [first', List.append_assoc, parts]
      have whole : skip text = word ++ [] := first.trans (List.append_nil _).symm
      have leads := (leads_characters whole some inside ends).map nameOf
      have leads' := (leads_characters first'' (by simp [some]) longer turns).map nameOf
      have blank : ∀ d ∈ tail.takeWhile isInline, Text.isBlank d = true := by
        intro d member
        rcases inline d member with rfl | rfl <;> decide
      have value : nameOf (word ++ tail.takeWhile isInline) = nameOf word := by
        rw [nameOf, trim_append_blanks word blank, nameOf]
      rw [value] at leads'
      exact Or.inr ⟨_, [], _, leads, leads', .beyond rfl (trail.skip_eq ▸ trail.gap.skipped)⟩
    · have ends' : ∀ d ∈ (rest ++ tail).head?, isNameCharacter d = false := by
        rwa [List.head?_append_of_ne_nil _ ended]
      rw [List.append_assoc] at first'
      exact Or.inr ⟨_, rest, rest ++ tail, (leads_characters first some inside ends).map nameOf,
        (leads_characters first' some inside ends').map nameOf, trail.continues rest⟩

end Words

/-! ### Sections -/

section Sections

theorem Trail.carries_comma (trail : Trail tail) : Carries (Continues tail) comma :=
  trail.carries_literal (c := ',') rfl rfl

theorem Trail.carries_nothing (trail : Trail tail) : Carries (Continues tail) nothing :=
  (trail.carries_literal (t := "ε") (c := 'ε') rfl rfl).orElse
    (trail.carries_literal (t := "_") (c := '_') rfl rfl)

theorem Trail.carries_mode (trail : Trail tail) : Carries (Continues tail) mode := by
  have label (m : Acceptance) : Carries (Continues tail) (literal m.label) := by
    cases m
    · exact trail.carries_literal (c := 'f') rfl rfl
    · exact trail.carries_literal (c := 'e') rfl rfl
    · exact trail.carries_literal (c := 'e') rfl rfl
  refine ((label .finalState).map _).orElse ?_
  exact ((label .emptyStack).map _).orElse ((label .either).map _)

theorem Trail.carries_read (trail : Trail tail) : Carries (Continues tail) read :=
  (trail.carries_nothing.map _).orElse (trail.carries_symbol.map _)

theorem Trail.carries_push (trail : Trail tail) : Carries (Continues tail) push := by
  have symbols := trail.carries_symbol.many takes_symbol fun _ _ => Continues.skipped
  exact (trail.carries_nothing.map _).orElse ((trail.carries_symbol.map _).seq symbols)

theorem Trail.carries_rule (trail : Trail tail) : Carries (Continues tail) rule := by
  have arrow : Carries (Continues tail) (literal "->") :=
    trail.carries_literal (c := '-') rfl rfl
  have comma := trail.carries_comma
  have origin := (trail.carries_state.map Rule.mk).seqLeft comma
  have read := (origin.seq trail.carries_read).seqLeft comma
  have popped := (read.seq trail.carries_read).seqLeft arrow
  exact ((popped.seq trail.carries_state).seqLeft comma).seq trail.carries_push

/-- A rule on one of the next lines is read off both texts, or off neither of them. -/
theorem Trail.carries_nextRule (trail : Trail tail) :
    Carries (Continues tail) (newlines *> rule) := by
  intro text text' continues
  rcases continues.cases_line with ⟨ends, ends'⟩ | ⟨c, more, newline, first, first'⟩
  · obtain ⟨mid, mid', ⟨gap, inside⟩, ⟨gap', inside'⟩, between, -⟩ := trail.gaps continues
    rcases trail.carries_rule mid mid' between with
      ⟨stops, stops'⟩ | ⟨r, rest, rest', leads, leads', left⟩
    · exact Or.inl ⟨gap.noRuleNext inside stops, gap'.noRuleNext inside' stops'⟩
    · cases continues with
      | within some same =>
        have some' : skip text' ≠ [] := by simp [same, some]
        exact Or.inr ⟨r, rest, rest', (gap.leads_newlines inside ends some).seqRight leads,
          (gap'.leads_newlines inside' ends' some').seqRight leads', left⟩
      | beyond ended later =>
        have none : AtLineEnd [] := nofun
        have here := gap_skip text
        rw [ended] at here
        exact Or.inl ⟨here.noRuleNext nofun none.stops_rule, later.noRuleNext nofun none.stops_rule⟩
  · have here : Inside text := by simp [Inside, first, newline]
    have here' : Inside text' := by simp [Inside, first', newline]
    exact Or.inl ⟨here.stops_newlines.seqRight, here'.stops_newlines.seqRight⟩

theorem Trail.carries_separatedBy (trail : Trail tail) {p : Pattern α}
    (carries : Carries (Continues tail) p) (takes : Takes 0 p) :
    Carries (Continues tail) (p.separatedBy comma) :=
  (carries.map _).seq ((trail.carries_comma.seqRight carries).many (takes_comma.seqRight takes)
    fun _ _ => Continues.skipped)

theorem Trail.carries_body (trail : Trail tail) (kind : Section.Kind) :
    Carries (Continues tail) (bodyOf kind) := by
  have states := trail.carries_separatedBy trail.carries_state takes_state.weak
  have symbols := trail.carries_separatedBy trail.carries_symbol takes_symbol.weak
  have rules := trail.carries_nextRule.many (takes_newlines.seqRight takes_rule)
    fun _ _ => Continues.skipped
  cases kind with
  | name => exact trail.carries_name
  | states => exact states.map _
  | input | stack => exact (symbols.optional.map _).map _
  | initial => exact trail.carries_state.map _
  | finals => exact states.optional.map _
  | accept => exact trail.carries_mode.map _
  | bottom => exact trail.carries_symbol.map _
  | rules => exact rules.map _

theorem Trail.carries_declaration (trail : Trail tail) (kind : Section.Kind) :
    Carries (Continues tail) (declaration kind (bodyOf kind)) := by
  obtain ⟨c, cs, starts, -⟩ := keyword_starts kind
  have word := trail.carries_literal starts (by cases kind <;> rfl)
  exact word.seqRight (trail.carries_body kind)

theorem Trail.carries_anySection (trail : Trail tail) : Carries (Continues tail) anySection := by
  have carries (last : Section.Kind) (kinds : List Section.Kind) :
      Carries (Continues tail) (sectionOf last kinds) := by
    induction kinds with
    | nil => exact trail.carries_declaration last
    | cons kind kinds ih => exact (trail.carries_declaration kind).orElse ih
  rw [anySection_eq]
  exact carries _ _

/-- Behind the end of a line, both texts stand before the same tokens, or at their end. -/
theorem Trail.carries_ending (trail : Trail tail) (continues : Continues tail text text') :
    Stops ending text ∧ Stops ending text' ∨
      ∃ rest rest', Leads ending text () rest ∧ Leads ending text' () rest' ∧
        Exact tail rest rest' := by
  rcases continues.cases_line with ⟨ends, ends'⟩ | ⟨c, more, newline, first, first'⟩
  · obtain ⟨rest, rest', ⟨gap, inside⟩, ⟨gap', inside'⟩, exact⟩ := trail.gaps continues
    exact Or.inr ⟨rest, rest', gap.leads_ending inside ends, gap'.leads_ending inside' ends', exact⟩
  · have stops {text more : List Char} (first : skip text = c :: more) : Stops ending text := by
      have inside : Inside text := by simp [Inside, first, newline]
      refine inside.stops_newlines.orElse fun s start => ?_
      simp [lookingAt, endOfInput, Pattern.named, scan, start, first]
    exact Or.inl ⟨stops first, stops first'⟩

theorem Trail.carries_sectionLine (trail : Trail tail) :
    Carries (Exact tail) (Prod.snd <$> sectionLine) := by
  intro text text' exact
  rcases trail.carries_anySection text text' exact.1 with
    ⟨stops, stops'⟩ | ⟨sec, mid, mid', leads, leads', between⟩
  · exact Or.inl ⟨stops_sectionLine stops, stops_sectionLine stops'⟩
  · rcases trail.carries_ending between with ⟨stops, stops'⟩ | ⟨rest, rest', ends, ends', left⟩
    · exact Or.inl ⟨leads.stops_sectionLine stops, leads'.stops_sectionLine stops'⟩
    · exact Or.inr ⟨sec, rest, rest', leads_sectionLine leads ends, leads_sectionLine leads' ends',
        left⟩

/-! ### Whole texts -/

def HasSections (text : List Char) (sections : List Section) : Prop :=
  ∃ found, sectionsOf text = .ok found ∧ found.map Prod.snd = sections

theorem hasSections_iff {core : List Char} {sections sections' : List Section}
    (gap : Gap core text) (inside : Inside core)
    (series : Series (Prod.snd <$> sectionLine) sections core rest) :
    HasSections text sections' ↔ skip rest = [] ∧ sections = sections' := by
  obtain ⟨found, rfl, only⟩ := sectionsOf_of_series gap inside series
  constructor
  · rintro ⟨found', read, rfl⟩
    obtain ⟨finished, rfl⟩ := (only found').mp read
    exact ⟨finished, rfl⟩
  · rintro ⟨finished, rfl⟩
    exact ⟨found, (only found).mpr ⟨finished, rfl⟩, rfl⟩

/-- A text has the same sections when it goes on with a tail. -/
theorem Trail.hasSections_append (trail : Trail tail) {sections : List Section} :
    HasSections (text ++ tail) sections ↔ HasSections text sections := by
  obtain ⟨core, core', ⟨gap, inside⟩, ⟨gap', inside'⟩, exact⟩ := trail.gaps (trail.continues text)
  obtain ⟨_, rest, rest', series, series', left⟩ :=
    trail.carries_sectionLine.series takes_sectionLine (fun _ _ => Exact.skipped) exact
  rw [hasSections_iff gap inside series, hasSections_iff gap' inside' series', left.finished_iff]

/-- A text has the sections that a gap leads to. -/
theorem Gap.hasSections {mid : List Char} (gap : Gap mid text) {sections : List Section} :
    HasSections text sections ↔ HasSections mid sections := by
  have trail : Trail [] := ⟨.done, nofun⟩
  obtain ⟨core, _, ⟨later, inside⟩, -, exact⟩ := trail.gaps (trail.continues mid)
  obtain ⟨_, rest, _, series, -⟩ :=
    trail.carries_sectionLine.series takes_sectionLine (fun _ _ => Exact.skipped) exact
  rw [hasSections_iff (gap.trans later) inside series, hasSections_iff later inside series]

end Sections

end Pushdown.Format
