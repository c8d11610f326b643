import Pushdown.Format.Grammar

/-!
# Scanning

How patterns read a text up to what they pass over. `Leads p text a rest` says that `p` reads `a`
off a text and leaves what `rest` leaves when its blanks and its comment are passed over; that is
all that the next pattern sees of it.
-/

namespace Pushdown.Format

/-! ### What is passed over -/

def isInline (c : Char) : Bool := c = ' ' || c = '\t'

/-- What is left of a text behind its blanks and its comment. -/
def skip (text : List Char) : List Char :=
  if (text.dropWhile isInline).head? = some '#' then
    (text.dropWhile isInline).dropWhile (!isNewline ·)
  else text.dropWhile isInline

theorem Source.rest_dropWhile (s : Source) (inClass : Char → Bool) :
    (s.dropWhile inClass).rest = s.rest.dropWhile inClass := by
  have parts := List.takeWhile_append_dropWhile (p := inClass) (l := s.rest)
  calc (s.dropWhile inClass).rest
      = (s.rest.takeWhile inClass ++ s.rest.dropWhile inClass).drop
          (s.rest.takeWhile inClass).length := by rw [parts]; rfl
    _ = s.rest.dropWhile inClass := List.drop_left

theorem rest_skipBlanks (s : Source) : (skipBlanks s).rest = skip s.rest := by
  unfold skipBlanks skip
  dsimp only
  rw [Source.rest_dropWhile]
  show (if (s.rest.dropWhile isInline).head? = some '#' then _ else _ : Source).rest = _
  split
  · rw [Source.rest_dropWhile, Source.rest_dropWhile]
    rfl
  · exact Source.rest_dropWhile s _

/-- A token starts with a character that is not passed over. -/
def IsSolid (c : Char) : Prop := c ≠ ' ' ∧ c ≠ '\t' ∧ c ≠ '#'

instance : DecidablePred IsSolid := fun _ => inferInstanceAs (Decidable (_ ∧ _ ∧ _))

theorem skip_eq_self {text : List Char} (solid : ∀ c ∈ text.head?, IsSolid c) :
    skip text = text := by
  cases text with
  | nil => rfl
  | cons c text =>
    obtain ⟨space, tab, hash⟩ := solid c rfl
    simp [skip, isInline, space, tab, hash]

theorem eq_of_isNewline {c : Char} (newline : isNewline c = true) : c = '\n' ∨ c = '\r' := by
  simpa [isNewline] using newline

theorem solid_of_isNewline {c : Char} (newline : isNewline c = true) : IsSolid c := by
  rcases eq_of_isNewline newline with rfl | rfl <;> decide

theorem solid_of_head?_skip (text : List Char) : ∀ c ∈ (skip text).head?, IsSolid c := by
  intro c first
  unfold skip at first
  split at first
  · have kept := List.head?_dropWhile_not (!isNewline ·) (text.dropWhile isInline)
    rw [first] at kept
    exact solid_of_isNewline (by simpa using kept)
  · next plain =>
    have kept := List.head?_dropWhile_not isInline text
    rw [first] at kept plain
    simp only [isInline, Bool.or_eq_false_iff, decide_eq_false_iff_not] at kept
    exact ⟨kept.1, kept.2, fun same => plain (congrArg some same)⟩

theorem skip_skip (text : List Char) : skip (skip text) = skip text :=
  skip_eq_self (solid_of_head?_skip text)

theorem skip_append {before text : List Char} (inline : ∀ c ∈ before, c = ' ' ∨ c = '\t') :
    skip (before ++ text) = skip text := by
  have dropped : (before ++ text).dropWhile isInline = text.dropWhile isInline := by
    apply List.dropWhile_append_of_pos
    intro c member
    simpa [isInline] using inline c member
  unfold skip
  rw [dropped]

theorem skip_comment {words text : List Char} (words_inline : ∀ c ∈ words, isNewline c = false)
    (ends : ∀ c ∈ text.head?, isNewline c = true) : skip ('#' :: words ++ text) = text := by
  have dropped : (words ++ text).dropWhile (!isNewline ·) = text := by
    rw [List.dropWhile_append_of_pos (by simpa using words_inline)]
    cases text with
    | nil => rfl
    | cons c text => simp [ends c rfl]
  simpa [skip, isInline, isNewline] using dropped

/-! ### What patterns read -/

variable {α β : Type}

/-- A pattern reads a value off a text and leaves a rest, up to what is passed over. -/
def Leads (p : Pattern α) (text : List Char) (a : α) (rest : List Char) : Prop :=
  ∀ s, s.rest = skip text → ∃ s', p.parse s = some (a, s') ∧ skip s'.rest = skip rest

def Stops (p : Pattern α) (text : List Char) : Prop := ∀ s, s.rest = skip text → p.parse s = none

variable {p : Pattern α} {q : Pattern β} {text mid rest : List Char} {a : α} {b : β}

theorem Leads.map (f : α → β) (leads : Leads p text a rest) : Leads (f <$> p) text (f a) rest := by
  intro s start
  obtain ⟨s', parsed, left⟩ := leads s start
  exact ⟨s', by rw [Pattern.parse_map, parsed, Option.map_some], left⟩

/-- What one pattern leaves is what the next one starts with. -/
theorem rest_skipBlanks_eq {s : Source} (left : skip s.rest = skip mid) :
    (skipBlanks s).rest = skip mid := by
  rw [rest_skipBlanks, left]

theorem Leads.andThen (first : Leads p text a mid) (second : Leads q mid b rest) :
    Leads (p.andThen q) text (a, b) rest := by
  intro s start
  obtain ⟨s₁, parsed₁, left₁⟩ := first s start
  obtain ⟨s₂, parsed₂, left₂⟩ := second (skipBlanks s₁) (rest_skipBlanks_eq left₁)
  exact ⟨s₂, by simp [Pattern.parse_andThen, parsed₁, parsed₂], left₂⟩

theorem Leads.seq {p : Pattern (α → β)} {q : Pattern α} {f : α → β} (first : Leads p text f mid)
    (second : Leads q mid a rest) : Leads (p <*> q) text (f a) rest :=
  (first.andThen second).map _

theorem Leads.seqRight (first : Leads p text a mid) (second : Leads q mid b rest) :
    Leads (p *> q) text b rest :=
  (first.andThen second).map Prod.snd

theorem Leads.orLeft {p q : Pattern α} (leads : Leads p text a rest) :
    Leads (p <|> q) text a rest := by
  intro s start
  obtain ⟨s', parsed, left⟩ := leads s start
  exact ⟨s', by simp [parsed], left⟩

theorem Leads.orRight {p q : Pattern α} (stops : Stops p text) (leads : Leads q text a rest) :
    Leads (p <|> q) text a rest := by
  intro s start
  obtain ⟨s', parsed, left⟩ := leads s start
  exact ⟨s', by simp [stops s start, parsed], left⟩

theorem Leads.some (leads : Leads p text a rest) : Leads p.optional text (some a) rest := by
  intro s start
  obtain ⟨s', parsed, left⟩ := leads s start
  exact ⟨s', by simp [Pattern.optional, parsed], left⟩

theorem Leads.none (stops : Stops p text) : Leads p.optional text none text := by
  intro s start
  exact ⟨s, by simp [Pattern.optional, stops s start], by rw [start, skip_skip]⟩

theorem Stops.map (f : α → β) (stops : Stops p text) : Stops (f <$> p) text := by
  intro s start
  simp [stops s start]

theorem Stops.andThen (stops : Stops p text) : Stops (p.andThen q) text := by
  intro s start
  rw [Pattern.parse_andThen, stops s start, Option.bind_none]

theorem Stops.seq {p : Pattern (α → β)} {q : Pattern α} (stops : Stops p text) :
    Stops (p <*> q) text :=
  stops.andThen.map _

theorem Stops.seqLeft (stops : Stops p text) : Stops (p <* q) text :=
  stops.andThen.map _

theorem Stops.seqRight (stops : Stops p text) : Stops (p *> q) text :=
  stops.andThen.map _

/-- A sequence stops where its first part leads to a text at which its second part stops. -/
theorem Leads.stops_andThen (first : Leads p text a mid) (second : Stops q mid) :
    Stops (p.andThen q) text := by
  intro s start
  obtain ⟨s₁, parsed₁, left₁⟩ := first s start
  simp [Pattern.parse_andThen, parsed₁, second (skipBlanks s₁) (rest_skipBlanks_eq left₁)]

theorem Leads.stopsLeft (first : Leads p text a mid) (second : Stops q mid) :
    Stops (p <* q) text :=
  (first.stops_andThen second).map _

theorem Leads.stopsRight (first : Leads p text a mid) (second : Stops q mid) :
    Stops (p *> q) text :=
  (first.stops_andThen second).map _

theorem Stops.orElse {p q : Pattern α} (first : Stops p text) (second : Stops q text) :
    Stops (p <|> q) text := by
  intro s start
  simp [first s start, second s start]

/-! ### Repetition -/

/-- A pattern reads values off a text one by one, and stops after them. -/
inductive Series (p : Pattern α) : List α → List Char → List Char → Prop where
  | stop {rest : List Char} : Stops p rest → Series p [] rest rest
  | next {a : α} {as : List α} {text mid rest : List Char} : Leads p text a mid →
    mid.length < (skip text).length → Series p as mid rest → Series p (a :: as) text rest

theorem length_skip_le (text : List Char) : (skip text).length ≤ text.length := by
  have blanks := (List.dropWhile_sublist (p := isInline) (l := text)).length_le
  unfold skip
  split
  · exact Nat.le_trans (List.dropWhile_sublist _).length_le blanks
  · exact blanks

theorem Series.collect {as : List α} (series : Series p as text rest) (room : List Char)
    (s : Source) (found : List α) (start : skip s.rest = skip text)
    (enough : (skip text).length ≤ room.length) :
    ∃ s', p.collect room s found = (found.reverse ++ as, s') ∧ skip s'.rest = skip rest := by
  induction series generalizing room s found with
  | stop stops =>
    refine ⟨s, ?_, start⟩
    cases room with
    | nil => simp [Pattern.collect]
    | cons _ room =>
      simp [Pattern.collect, stops (skipBlanks s) (rest_skipBlanks_eq start)]
  | @next a as text mid rest leads shorter _ ih =>
    -- Every value takes a character, so the room that is left is enough for the others.
    obtain ⟨s₁, parsed, left⟩ := leads (skipBlanks s) (rest_skipBlanks_eq start)
    cases room with
    | nil =>
      rw [List.length_nil] at enough
      omega
    | cons _ room =>
      have bound := length_skip_le mid
      rw [List.length_cons] at enough
      obtain ⟨s', collected, final⟩ := ih room s₁ (a :: found) left (by omega)
      refine ⟨s', ?_, final⟩
      simpa [Pattern.collect, parsed] using collected

theorem Series.leads {as : List α} (series : Series p as text rest) :
    Leads p.many text as rest := by
  intro s start
  have enough : (skip text).length ≤ s.rest.length := Nat.le_of_eq (congrArg List.length start.symm)
  obtain ⟨s', collected, left⟩ := series.collect s.rest s [] (by rw [start, skip_skip]) enough
  exact ⟨s', congrArg some collected, left⟩

theorem Series.congr {as : List α} {text' : List Char} (series : Series p (a :: as) text rest)
    (same : skip text = skip text') : Series p (a :: as) text' rest := by
  cases series with
  | next leads shorter later =>
    exact .next (fun s start => leads s (start.trans same.symm)) (same ▸ shorter) later

end Pushdown.Format
