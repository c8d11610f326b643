import Pushdown.Proofs.Gaps

/-!
# Tokens

The patterns of the grammar read what the layouts of their values write. `Reads` says so for every
text of a layout and for every text behind it that fits, one that does not carry a token on.
-/

namespace Pushdown.Format

variable {α β : Type}

/-- A pattern reads a value off every text of a form, up to a rest that fits. -/
def Reads (p : Pattern α) (a : α) (form : Language Char) (fits : List Char → Prop) : Prop :=
  ∀ xs ∈ form, ∀ rest, fits rest → Leads p (xs ++ rest) a rest

/-- Every text fits behind a token that nothing carries on. -/
def Anything : List Char → Prop := fun _ => True

/-- Whatever is behind a form, the form takes a character. -/
def Advances (form : Language Char) : Prop :=
  ∀ xs ∈ form, ∀ rest : List Char, rest.length < (skip (xs ++ rest)).length

section Combined

variable {p : Pattern α} {q : Pattern β} {a : α} {b : β} {form form' : Language Char}
  {fits fits' : List Char → Prop}

theorem Reads.map (f : α → β) (reads : Reads p a form fits) : Reads (f <$> p) (f a) form fits :=
  fun xs member rest fit => (reads xs member rest fit).map f

/-- What is behind the first of two forms is the second one, which has to fit there. -/
theorem Reads.andThen (first : Reads p a form fits) (second : Reads q b form' fits')
    (follows : ∀ ys ∈ form', ∀ rest, fits (ys ++ rest)) :
    Reads (p.andThen q) (a, b) (form * form') fits' := by
  intro _ member rest fit
  obtain ⟨xs, written, ys, later, rfl⟩ := Language.mem_mul.mp member
  rw [List.append_assoc]
  exact (first xs written _ (follows ys later rest)).andThen (second ys later rest fit)

theorem Reads.seq {p : Pattern (α → β)} {q : Pattern α} {f : α → β} (first : Reads p f form fits)
    (second : Reads q a form' fits') (follows : ∀ ys ∈ form', ∀ rest, fits (ys ++ rest)) :
    Reads (p <*> q) (f a) (form * form') fits' :=
  (first.andThen second follows).map _

theorem Reads.seqLeft (first : Reads p a form fits) (second : Reads q b form' fits')
    (follows : ∀ ys ∈ form', ∀ rest, fits (ys ++ rest)) :
    Reads (p <* q) a (form * form') fits' :=
  (first.andThen second follows).map Prod.fst

theorem Reads.seqRight (first : Reads p a form fits) (second : Reads q b form' fits')
    (follows : ∀ ys ∈ form', ∀ rest, fits (ys ++ rest)) :
    Reads (p *> q) b (form * form') fits' :=
  (first.andThen second follows).map Prod.snd

theorem Advances.mul (advances : Advances form) (form' : Language Char) :
    Advances (form * form') := by
  intro _ member rest
  obtain ⟨xs, written, ys, -, rfl⟩ := Language.mem_mul.mp member
  rw [List.append_assoc]
  have taken := advances xs written (ys ++ rest)
  rw [List.length_append] at taken
  omega

/-- Values are read one by one where each is written so that the next fits behind it. -/
theorem Reads.series {form : α → Language Char} {as : List α} {text rest : List Char}
    (reads : ∀ a ∈ as, Reads p a (form a) fits) (advances : ∀ a ∈ as, Advances (form a))
    (follows : ∀ a ∈ as, ∀ xs ∈ form a, ∀ rest, fits (xs ++ rest)) (fit : fits rest)
    (stops : Stops p rest) (member : text ∈ (as.map form).prod) :
    Series p as (text ++ rest) rest := by
  induction as generalizing text with
  | nil =>
    obtain rfl := (Language.mem_one _).mp member
    exact .stop stops
  | cons a as ih =>
    rw [List.forall_mem_cons] at reads advances follows
    rw [List.map_cons, List.prod_cons] at member
    obtain ⟨xs, written, ys, later, rfl⟩ := Language.mem_mul.mp member
    rw [List.append_assoc]
    have series := ih reads.2 advances.2 follows.2 later
    refine .next (reads.1 xs written _ ?_) (advances.1 xs written _) series
    cases as with
    | nil =>
      obtain rfl := (Language.mem_one _).mp later
      exact fit
    | cons b as =>
      rw [List.map_cons, List.prod_cons] at later
      obtain ⟨next, written, others, -, rfl⟩ := Language.mem_mul.mp later
      rw [List.append_assoc]
      exact follows.2 b List.mem_cons_self next written _

end Combined

/-! ### Words of the grammar -/

section Words

variable {t : String} {c : Char} {cs xs rest : List Char}

theorem skip_token (starts : t.toList = c :: cs) (solid : IsSolid c) (member : xs ∈ Layout.token t)
    (rest : List Char) : skip (xs ++ rest) = t.toList ++ rest := by
  obtain ⟨before, blank, _, rfl, rfl⟩ := Language.mem_mul.mp member
  rw [List.append_assoc, skip_append blank, starts]
  apply skip_eq_self
  rintro _ ⟨⟩
  exact solid

theorem advances_token (starts : t.toList = c :: cs) (solid : IsSolid c) :
    Advances (Layout.token t) := by
  intro xs member rest
  rw [skip_token starts solid member, starts, List.length_append, List.length_cons]
  omega

theorem reads_literal (starts : t.toList = c :: cs) (solid : IsSolid c) :
    Reads (Pattern.literal t) () (Layout.token t) Anything := by
  intro xs member rest _ s start
  rw [skip_token starts solid member] at start
  refine ⟨s.drop t.toList.length, ?_, ?_⟩
  · simp [Pattern.literal, Pattern.scan, Source.dropText?, start]
  · simp [Source.drop, start]

theorem stops_literal {u : String} (other : u.toList.isPrefixOf (skip xs) = false) :
    Stops (Pattern.literal u) xs := by
  intro s start
  show (s.dropText? u.toList).map _ = none
  rw [Source.dropText?, start, other]
  rfl

theorem reads_comma : Reads comma () (Layout.token ",") Anything :=
  reads_literal (c := ',') rfl (by decide)

/-- What opens a text of a token is a blank or the head of the token. -/
theorem head?_token (starts : t.toList = c :: cs) (member : xs ∈ Layout.token t)
    (rest : List Char) : ∀ d ∈ (xs ++ rest).head?, d = ' ' ∨ d = '\t' ∨ d = c := by
  obtain ⟨before, blank, _, rfl, rfl⟩ := Language.mem_mul.mp member
  intro d first
  cases before with
  | nil =>
    rw [starts] at first
    exact Or.inr (Or.inr (Option.some.inj first).symm)
  | cons b before =>
    obtain rfl : b = d := Option.some.inj first
    rcases blank b List.mem_cons_self with space | tab
    · exact Or.inl space
    · exact Or.inr (Or.inl tab)

theorem AtLineEnd.stops_literal {u : String} {d : Char} {ds : List Char}
    (ends : AtLineEnd rest) (starts : u.toList = d :: ds) (other : isNewline d = false) :
    Stops (Pattern.literal u) rest := by
  apply Format.stops_literal
  rw [starts]
  cases left : skip rest with
  | nil => rfl
  | cons e more =>
    have newline : isNewline e = true := ends e (by rw [left]; rfl)
    have apart : (d == e) = false := by
      rw [beq_eq_false_iff_ne]
      rintro rfl
      rw [other] at newline
      cases newline
    rw [List.isPrefixOf_cons_cons, apart, Bool.false_and]

end Words

/-! ### States -/

/-- A text does not carry on the name of a state. -/
def AfterState (text : List Char) : Prop := ∀ c ∈ text.head?, isStateCharacter c = false

def IsStateName (q : State) : Prop := q ≠ "" ∧ ∀ c ∈ q.toList, isStateCharacter c = true

theorem solid_of_isStateCharacter {c : Char} (inName : isStateCharacter c = true) : IsSolid c := by
  refine ⟨?_, ?_, ?_⟩ <;> rintro rfl <;> revert inName <;> decide

theorem IsStateName.head {q : State} (named : IsStateName q) :
    ∃ c cs, q.toList = c :: cs ∧ isStateCharacter c = true := by
  cases starts : q.toList with
  | nil => exact absurd (String.toList_eq_nil_iff.mp starts) named.1
  | cons c cs => exact ⟨c, cs, rfl, named.2 c (by rw [starts]; exact List.mem_cons_self)⟩

theorem parse_characters {inClass : Char → Bool} {word rest : List Char} {s : Source}
    (start : s.rest = word ++ rest) (some : word ≠ []) (inside : ∀ c ∈ word, inClass c = true)
    (ends : ∀ c ∈ rest.head?, inClass c = false) :
    ∃ s', (Pattern.characters inClass).parse s = .some (word, s') ∧ s'.rest = rest := by
  have taken : (word ++ rest).takeWhile inClass = word := by
    rw [List.takeWhile_append_of_pos inside]
    cases rest with
    | nil => simp
    | cons c rest => simp [ends c rfl]
  refine ⟨s.drop word.length, ?_, by simp [Source.drop, start]⟩
  obtain ⟨c, cs, rfl⟩ := List.exists_cons_of_ne_nil some
  simp only [Pattern.characters, Pattern.scan, Source.takeWhile, start, taken]

theorem reads_state {q : State} (named : IsStateName q) :
    Reads state q (Layout.token q) AfterState := by
  intro xs member rest fit s start
  obtain ⟨c, cs, starts, inName⟩ := named.head
  rw [skip_token starts (solid_of_isStateCharacter inName) member] at start
  have some : q.toList ≠ [] := by simp [starts]
  obtain ⟨s', parsed, left⟩ := parse_characters start some named.2 fit
  refine ⟨s', ?_, by rw [left]⟩
  show ((Pattern.characters isStateCharacter).parse s).map _ = _
  rw [parsed]
  exact congrArg (fun q => Option.some (q, s')) String.ofList_toList

theorem afterState_of_atLineEnd {rest : List Char} (ends : AtLineEnd rest) : AfterState rest := by
  intro c first
  by_contra inName
  rw [Bool.not_eq_false] at inName
  have same : skip rest = rest := by
    apply skip_eq_self
    intro d head
    rw [first] at head
    obtain rfl := Option.some.inj head
    exact solid_of_isStateCharacter inName
  have newline := ends c (by rwa [same])
  rcases eq_of_isNewline newline with rfl | rfl <;>
    revert inName <;> decide

theorem AtLineEnd.stops_characters {rest : List Char} {inClass : Char → Bool}
    (ends : AtLineEnd rest) (excludes : ∀ c, isNewline c = true → inClass c = false) :
    Stops (Pattern.characters inClass) rest := by
  intro s start
  have none : s.rest.takeWhile inClass = [] := by
    rw [start]
    cases left : skip rest with
    | nil => rfl
    | cons c more =>
      have newline : isNewline c = true := ends c (by rw [left]; rfl)
      simp [excludes c newline]
  simp [Pattern.characters, Pattern.scan, Source.takeWhile, none]

theorem AtLineEnd.stops_state {rest : List Char} (ends : AtLineEnd rest) : Stops state rest := by
  refine (ends.stops_characters fun c newline => ?_).map String.ofList
  rcases eq_of_isNewline newline with rfl | rfl <;> decide

/-! ### Symbols -/

section Symbols

variable {x : Symbol} {xs rest : List Char}

def IsWritableSymbol (x : Symbol) : Prop := x ≠ '\x27' ∧ isNewline x = false

theorem ne_of_not_isReserved {c : Char} (plain : isReserved x = false)
    (reserved : isReserved c = true) : x ≠ c := by
  rintro rfl
  rw [plain] at reserved
  cases reserved

theorem skip_symbol (member : xs ∈ Layout.symbol x) (rest : List Char) :
    skip (xs ++ rest) = '\x27' :: x :: '\x27' :: rest ∨
      skip (xs ++ rest) = x :: rest ∧ isReserved x = false := by
  obtain ⟨before, blank, _, form, rfl⟩ := Language.mem_mul.mp member
  rw [List.append_assoc, skip_append blank]
  rcases (Language.mem_add _ _ _).mp form with rfl | ⟨rfl, plain, -⟩
  · refine Or.inl (skip_eq_self ?_)
    rintro _ ⟨⟩
    decide
  · refine Or.inr ⟨skip_eq_self ?_, plain⟩
    rintro _ ⟨⟩
    exact ⟨ne_of_not_isReserved plain rfl, ne_of_not_isReserved plain rfl,
      ne_of_not_isReserved plain rfl⟩

theorem advances_symbol : Advances (Layout.symbol x) := by
  intro xs member rest
  rcases skip_symbol member rest with quoted | ⟨bare, -⟩
  · rw [quoted]
    simp only [List.length_cons]
    omega
  · rw [bare]
    simp

theorem reads_symbol (writable : IsWritableSymbol x) :
    Reads symbol x (Layout.symbol x) Anything := by
  intro xs member rest _ s start
  rcases skip_symbol member rest with quoted | ⟨bare, plain⟩
  · rw [quoted] at start
    refine ⟨s.drop 3, ?_, by simp [Source.drop, start]⟩
    show readSymbol s = _
    simp [readSymbol, start, writable.1, writable.2]
  · rw [bare] at start
    have quote : x ≠ '\x27' := ne_of_not_isReserved plain rfl
    refine ⟨s.drop 1, ?_, by simp [Source.drop, start]⟩
    show readSymbol s = _
    simp [readSymbol, start, quote, plain]

theorem stops_nothing (member : xs ∈ Layout.symbol x) (rest : List Char) :
    Stops nothing (xs ++ rest) := by
  have other (c : Char) (text : String) (starts : text.toList = [c])
      (reserved : isReserved c = true) (quote : c ≠ '\x27') :
      text.toList.isPrefixOf (skip (xs ++ rest)) = false := by
    rcases skip_symbol member rest with quoted | ⟨bare, plain⟩
    · rw [quoted, starts, List.isPrefixOf_cons_cons, beq_false_of_ne quote, Bool.false_and]
    · have apart := (ne_of_not_isReserved plain reserved).symm
      rw [bare, starts, List.isPrefixOf_cons_cons, beq_false_of_ne apart, Bool.false_and]
  exact (stops_literal (other 'ε' "ε" rfl (by decide) (by decide))).orElse
    (stops_literal (other '_' "_" rfl (by decide) (by decide)))

theorem reads_nothing : Reads nothing () Layout.nothing Anything := by
  intro xs member rest fit
  rcases (Language.mem_add _ _ _).mp member with epsilon | underscore
  · exact (reads_literal (c := 'ε') rfl (by decide) xs epsilon rest fit).orLeft
  · have stops : Stops (Pattern.literal "ε") (xs ++ rest) := by
      apply stops_literal
      rw [skip_token (c := '_') rfl (by decide) underscore]
      rfl
    exact .orRight stops (reads_literal (c := '_') rfl (by decide) xs underscore rest fit)

theorem reads_read {found : Option Symbol} (writable : ∀ x ∈ found, IsWritableSymbol x) :
    Reads read found (Layout.single found) Anything := by
  intro xs member rest fit
  cases found with
  | none => exact ((reads_nothing xs member rest fit).map _).orLeft
  | some x =>
    exact .orRight ((stops_nothing member rest).map _)
      ((reads_symbol (writable x rfl) xs member rest fit).map _)

theorem AtLineEnd.stops_symbol (ends : AtLineEnd rest) : Stops symbol rest := by
  intro s start
  show readSymbol s = _
  cases left : skip rest with
  | nil => simp [readSymbol, start, left]
  | cons c more =>
    have newline : isNewline c = true := ends c (by rw [left]; rfl)
    rcases eq_of_isNewline newline with rfl | rfl <;>
      simp [readSymbol, start, left, isReserved, isNewline]

theorem reads_push {w : Word} (writable : ∀ x ∈ w, IsWritableSymbol x) :
    Reads push w (Layout.word w) AtLineEnd := by
  intro xs member rest ends
  cases w with
  | nil => exact ((reads_nothing xs member rest trivial).map _).orLeft
  | cons x w =>
    obtain ⟨first, written, more, others, rfl⟩ := Language.mem_mul.mp member
    rw [List.forall_mem_cons] at writable
    have series : Series symbol w (more ++ rest) rest :=
      Reads.series (fun y among => reads_symbol (writable.2 y among)) (fun _ _ => advances_symbol)
        (fun _ _ _ _ _ => trivial) trivial ends.stops_symbol others
    rw [List.append_assoc]
    have leads := (reads_symbol writable.1 first written (more ++ rest) trivial).map List.cons
    exact .orRight ((stops_nothing written _).map _) (leads.seq series.leads)

end Symbols

end Pushdown.Format
