import Pushdown.Format.Reading
import Pushdown.Proofs.Sections

/-!
# Documents

A document is read section by section. Each section ends with its line or with the text; white space
that is trimmed off a text belongs to none of them.
-/

namespace Pushdown.Format

open Pattern

variable {text rest trail core : List Char}

/-! ### The end of a section -/

theorem Gap.atLineEnd (gap : Gap [] text) : AtLineEnd text := by
  rcases gap.skip_cases with finished | ⟨c, more, start, newline, -⟩
  · rw [AtLineEnd, finished]
    nofun
  · intro d first
    rw [start] at first
    obtain rfl : c = d := Option.some.inj first
    exact newline

def ending : Pattern Unit := newlines <|> endOfInput.lookingAt

theorem Gap.leads_ending (gap : Gap rest text) (inside : Inside rest) (ends : AtLineEnd text) :
    Leads ending text () rest := by
  by_cases finished : skip text = []
  · have here : Inside text := by
      intro c first
      rw [finished] at first
      cases first
    refine .orRight here.stops_newlines ?_
    have none : skip rest = [] := by
      rcases gap.skip_cases with same | ⟨c, more, start, -⟩
      · rw [← same, finished]
      · rw [finished] at start
        cases start
    intro s start
    rw [finished] at start
    refine ⟨s, ?_, by rw [start, none]; rfl⟩
    simp [lookingAt, endOfInput, Pattern.named, scan, start]
  · exact (gap.leads_newlines inside ends finished).orLeft

def sectionLine : Pattern (Span × Section) := anySection.located <* ending

theorem leads_sectionLine {sec : Section} {mid : List Char} (first : Leads anySection text sec mid)
    (second : Leads ending mid () rest) : Leads (Prod.snd <$> sectionLine) text sec rest := by
  intro s start
  obtain ⟨s₁, parsed₁, left₁⟩ := first s start
  obtain ⟨s₂, parsed₂, left₂⟩ := second (skipBlanks s₁) (rest_skipBlanks_eq left₁)
  exact ⟨s₂, by simp [sectionLine, located, parsed₁, parsed₂], left₂⟩

theorem stops_sectionLine (stops : Stops anySection text) :
    Stops (Prod.snd <$> sectionLine) text := by
  intro s start
  simp [sectionLine, located, stops s start]

theorem Leads.stops_sectionLine {sec : Section} {mid : List Char}
    (first : Leads anySection text sec mid) (second : Stops ending mid) :
    Stops (Prod.snd <$> sectionLine) text := by
  intro s start
  obtain ⟨s₁, parsed₁, left₁⟩ := first s start
  simp [sectionLine, located, parsed₁, second (skipBlanks s₁) (rest_skipBlanks_eq left₁)]

theorem advances_declaration (sec : Section) : Advances (Layout.declaration sec) := by
  obtain ⟨c, cs, starts, solid⟩ := keyword_starts sec.kind
  exact (advances_token starts solid).mul _

/-- The sections of a text are read one by one, where only a gap follows the last of them. -/
theorem series_sections {sec : Section} {secs : List Section} {first more : List Char}
    (writable : ∀ s ∈ sec :: secs, IsWritable s) (written : first ∈ Layout.declaration sec)
    (others : more ∈ (secs.map fun s => Layout.lineEnds * Layout.declaration s).prod)
    (gap : Gap [] trail) :
    Series (Prod.snd <$> sectionLine) (sec :: secs) (first ++ (more ++ trail)) [] := by
  have finished : Inside [] := nofun
  induction secs generalizing sec first more with
  | nil =>
    obtain rfl := (Language.mem_one _).mp others
    have none : AtLineEnd [] := nofun
    have noRule : NoRuleNext trail := gap.noRuleNext finished none.stops_rule
    have leads := reads_anySection (writable sec List.mem_cons_self) first written trail
      ⟨gap.atLineEnd, noRule⟩
    have advances := advances_declaration sec first written trail
    exact .next (leads_sectionLine leads (gap.leads_ending finished gap.atLineEnd))
      (Nat.zero_lt_of_lt advances) (.stop (stops_sectionLine (stops_anySection rfl)))
  | cons next secs ih =>
    rw [List.map_cons, List.prod_cons] at others
    obtain ⟨_, line, later, last, rfl⟩ := Language.mem_mul.mp others
    obtain ⟨breaks, lineEnds, second, declares, rfl⟩ := Language.mem_mul.mp line
    rw [List.forall_mem_cons] at writable
    have series := ih writable.2 declares last
    have inside := inside_declaration declares (later ++ trail)
    have gap : Gap (second ++ (later ++ trail)) (breaks ++ (second ++ (later ++ trail))) :=
      gap_lineEnds lineEnds .done
    have atEnd := atLineEnd_lineEnds lineEnds (second ++ (later ++ trail))
    have leads := reads_anySection writable.1 first written _
      ⟨atEnd, gap.noRuleNext inside (stops_rule_declaration declares _)⟩
    have line := leads_sectionLine leads (gap.leads_ending inside atEnd)
    have advances := advances_declaration sec first written (breaks ++ (second ++ (later ++ trail)))
    simp only [List.append_assoc]
    refine .next line ?_ series
    rw [List.length_append] at advances
    omega

/-! ### A whole text -/

theorem collect_map {α β : Type} (f : α → β) (p : Pattern α) (room : List Char) (s : Source)
    (found : List α) : (f <$> p).collect room s (found.map f) =
      ((p.collect room s found).1.map f, (p.collect room s found).2) := by
  induction room generalizing s found with
  | nil => simp [collect]
  | cons _ room ih =>
    cases parsed : p.parse (skipBlanks s) with
    | none => simp [collect, parsed]
    | some next =>
      have rest := ih next.2 (next.1 :: found)
      simpa [collect, parsed] using rest

theorem program_eq : program = named .program
    (startOfInput *> newline.many *> sectionLine.many <* endOfInput) := rfl

/-- A text is read into the sections that a gap leads to, if nothing else is behind them. -/
theorem sectionsOf_of_series {sections : List Section} (gap : Gap core text) (inside : Inside core)
    (series : Series (Prod.snd <$> sectionLine) sections core rest) :
    ∃ found, found.map Prod.snd = sections ∧
      ∀ found', sectionsOf text = .ok found' ↔ skip rest = [] ∧ found = found' := by
  obtain ⟨units, lead⟩ := gap.leads_many inside
  obtain ⟨s₁, parsed₁, left₁⟩ := lead (skipBlanks (.ofText text)) (rest_skipBlanks _)
  obtain ⟨s₂, parsed₂, left₂⟩ := series.leads (skipBlanks s₁) (rest_skipBlanks_eq left₁)
  have mapped := collect_map Prod.snd sectionLine (skipBlanks s₁).rest (skipBlanks s₁) []
  generalize read : sectionLine.collect (skipBlanks s₁).rest (skipBlanks s₁) [] = found at mapped
  have values := mapped.symm.trans (Option.some.inj parsed₂)
  obtain ⟨sections_eq, source_eq⟩ := Prod.mk.inj values
  have line : sectionLine.many.parse (skipBlanks s₁) = some (found.1, s₂) := by
    rw [← source_eq, ← read]
    rfl
  have whole : program.parse (.ofText text) =
      (endOfInput.parse (skipBlanks s₂)).map fun (_, s) => (found.1, s) := by
    have start : startOfInput.parse (.ofText text) = some ((), .ofText text) := rfl
    simp only [program_eq, parse_named, parse_seqLeft, parse_seqRight, start, parsed₁, line,
      Option.bind_some]
  refine ⟨found.1, sections_eq, fun found' => ?_⟩
  have behind : (skipBlanks s₂).rest = skip rest := rest_skipBlanks_eq left₂
  unfold sectionsOf
  rw [whole]
  by_cases finished : skip rest = []
  · have last : endOfInput.parse (skipBlanks s₂) = some ((), skipBlanks s₂) := by
      simp [endOfInput, scan, behind, finished]
    simp [last, finished]
  · have last : endOfInput.parse (skipBlanks s₂) = none := by
      simp [endOfInput, scan, behind, finished]
    simp [last, finished]

/-- A text is read into sections when a gap leads to them and another one follows. -/
theorem sectionsOf_eq_ok {sections : List Section} (gap : Gap core text) (inside : Inside core)
    (series : Series (Prod.snd <$> sectionLine) sections core []) :
    ∃ found, sectionsOf text = .ok found ∧ found.map Prod.snd = sections := by
  obtain ⟨found, sections_eq, read⟩ := sectionsOf_of_series gap inside series
  exact ⟨found, (read found).mpr ⟨rfl, rfl⟩, sections_eq⟩

/-! ### The last character of a layout -/

section LastCharacter

variable {form form' : Language Char}

def EndsVisibly (form : Language Char) : Prop :=
  ∀ xs ∈ form, ∀ c ∈ xs.getLast?, Text.isBlank c = false

structure Visible (form : Language Char) : Prop where
  some : ∀ xs ∈ form, xs ≠ []
  ends : EndsVisibly form

theorem endsVisibly_one : EndsVisibly 1 := by
  intro xs member
  obtain rfl := (Language.mem_one _).mp member
  nofun

theorem EndsVisibly.mul (first : EndsVisibly form) (second : EndsVisibly form') :
    EndsVisibly (form * form') := by
  intro _ member c last
  obtain ⟨xs, written, ys, later, rfl⟩ := Language.mem_mul.mp member
  rw [List.getLast?_append] at last
  rcases Option.or_eq_some_iff.mp last with final | ⟨-, final⟩
  · exact second ys later c final
  · exact first xs written c final

theorem Visible.mul_right (first : Visible form) (second : EndsVisibly form') :
    Visible (form * form') := by
  refine ⟨?_, first.ends.mul second⟩
  intro _ member
  obtain ⟨xs, written, ys, -, rfl⟩ := Language.mem_mul.mp member
  exact List.append_ne_nil_of_left_ne_nil (first.some xs written) ys

theorem Visible.mul_left (second : Visible form') (form : Language Char) :
    Visible (form * form') := by
  constructor
  · intro _ member
    obtain ⟨xs, -, ys, later, rfl⟩ := Language.mem_mul.mp member
    exact List.append_ne_nil_of_right_ne_nil xs (second.some ys later)
  · intro _ member c last
    obtain ⟨xs, -, ys, later, rfl⟩ := Language.mem_mul.mp member
    rw [List.getLast?_append_of_ne_nil _ (second.some ys later)] at last
    exact second.ends ys later c last

theorem Visible.add (first : Visible form) (second : Visible form') : Visible (form + form') := by
  constructor
  · intro xs member
    rcases (Language.mem_add _ _ _).mp member with left | right
    · exact first.some xs left
    · exact second.some xs right
  · intro xs member
    rcases (Language.mem_add _ _ _).mp member with left | right
    · exact first.ends xs left
    · exact second.ends xs right

theorem endsVisibly_prod {α : Type} {form : α → Language Char} {as : List α}
    (visible : ∀ a ∈ as, Visible (form a)) : EndsVisibly (as.map form).prod := by
  induction as with
  | nil => exact endsVisibly_one
  | cons a as ih =>
    rw [List.forall_mem_cons] at visible
    rw [List.map_cons, List.prod_cons]
    exact visible.1.ends.mul (ih visible.2)

theorem visible_separated {α : Type} {separator : Language Char} {form : α → Language Char} {a : α}
    {as : List α} (visible : ∀ b ∈ a :: as, Visible (form b)) :
    Visible (Layout.separated separator form (a :: as)) := by
  rw [List.forall_mem_cons] at visible
  exact visible.1.mul_right (endsVisibly_prod fun b among => (visible.2 b among).mul_left separator)

theorem endsVisibly_separated {α : Type} {separator : Language Char} {form : α → Language Char}
    {as : List α} (visible : ∀ b ∈ as, Visible (form b)) :
    EndsVisibly (Layout.separated separator form as) := by
  cases as with
  | nil => exact endsVisibly_one
  | cons a as => exact (visible_separated visible).ends

theorem visible_token {t : String} {c : Char} (last : t.toList.getLast? = some c)
    (visible : Text.isBlank c = false) : Visible (Layout.token t) := by
  refine Visible.mul_left ⟨?_, ?_⟩ Layout.blanks
  · rintro _ rfl none
    rw [none] at last
    cases last
  · rintro _ rfl d final
    obtain rfl : c = d := Option.some.inj (last.symm.trans final)
    exact visible

theorem isBlank_of_isStateCharacter {c : Char} (inName : isStateCharacter c = true) :
    Text.isBlank c = false := by
  change (((decide (c.val ≥ 'A'.val ∧ c.val ≤ 'Z'.val) ||
    (decide (c.val ≥ 'a'.val) && decide (c.val ≤ 'z'.val))) ||
    (decide (c.val ≥ '0'.val) && decide (c.val ≤ '9'.val))) || decide (c = '_')) = true at inName
  simp only [Bool.or_eq_true, Bool.and_eq_true, decide_eq_true_eq, UInt32.le_iff_toNat_le,
    ge_iff_le] at inName
  rcases inName with range | rfl
  · change (65 ≤ c.toNat ∧ c.toNat ≤ 90 ∨ 97 ≤ c.toNat ∧ c.toNat ≤ 122) ∨
      48 ≤ c.toNat ∧ c.toNat ≤ 57 at range
    simp only [Text.isBlank, Bool.or_eq_false_iff, Bool.and_eq_false_iff, decide_eq_false_iff_not]
    omega
  · decide

theorem visible_state {q : State} (named : IsStateName q) : Visible (Layout.token q) := by
  obtain ⟨c, cs, starts, -⟩ := named.head
  have some : q.toList ≠ [] := by simp [starts]
  have last := List.getLast?_eq_some_getLast some
  exact visible_token last (isBlank_of_isStateCharacter (named.2 _ (List.getLast_mem some)))

theorem visible_symbol (x : Symbol) : Visible (Layout.symbol x) := by
  refine Visible.mul_left (Visible.add ⟨?_, ?_⟩ ⟨?_, ?_⟩) Layout.blanks
  · rintro _ rfl
    nofun
  · rintro _ rfl _ ⟨⟩
    exact (by decide : Text.isBlank '\x27' = false)
  · rintro _ ⟨rfl, -⟩
    nofun
  · rintro _ ⟨rfl, -, visible⟩ _ ⟨⟩
    exact visible

theorem visible_nothing : Visible Layout.nothing :=
  (visible_token (c := 'ε') rfl (by decide)).add (visible_token (c := '_') rfl (by decide))

theorem visible_word (w : Word) : Visible (Layout.word w) := by
  cases w with
  | nil => exact visible_nothing
  | cons x w => exact (visible_symbol x).mul_right (endsVisibly_prod fun y _ => visible_symbol y)

theorem endsVisibly_body {sec : Section} (writable : IsWritable sec) :
    EndsVisibly (Layout.body sec) := by
  cases sec with
  | name text =>
    have some : text.toList ≠ [] := mt String.toList_eq_nil_iff.mp writable.1
    have last := List.getLast?_eq_some_getLast some
    exact (visible_token last ((trimmed_of_trim_eq some writable.2.1).last _ last)).ends
  | states names => exact endsVisibly_separated fun q among => visible_state (writable.2 q among)
  | finals names => exact endsVisibly_separated fun q among => visible_state (writable q among)
  | input list | stack list => exact endsVisibly_separated fun x _ => visible_symbol x
  | initial q => exact (visible_state writable).ends
  | accept m => cases m <;> exact (visible_token rfl (by decide)).ends
  | bottom x => exact (visible_symbol x).ends
  | rules list =>
    exact endsVisibly_prod fun r _ => ((visible_word r.pushes).mul_left _).mul_left _

theorem visible_declaration {sec : Section} (writable : IsWritable sec) :
    Visible (Layout.declaration sec) := by
  have keyword : Visible (Layout.token (sec.kind.keyword ++ ":")) := by
    generalize sec.kind = kind
    cases kind <;> exact visible_token (c := ':') rfl (by decide)
  exact keyword.mul_right (endsVisibly_body writable)

/-- Sections start and end visibly, but for the blanks before their first keyword. -/
theorem trimmed_sections {sec : Section} {secs : List Section} {core : List Char}
    (writable : ∀ s ∈ sec :: secs, IsWritable s)
    (written : core ∈ Layout.separated Layout.lineEnds Layout.declaration (sec :: secs)) :
    ∃ before inner, core = before ++ inner ∧ before ∈ Layout.blanks ∧ Trimmed inner := by
  have visible : Visible (Layout.separated Layout.lineEnds Layout.declaration (sec :: secs)) :=
    visible_separated fun s among => visible_declaration (writable s among)
  have ends := visible.ends core written
  obtain ⟨_, first, more, -, rfl⟩ := Language.mem_mul.mp written
  obtain ⟨_, keyword, body, -, rfl⟩ := Language.mem_mul.mp first
  obtain ⟨before, blank, _, rfl, rfl⟩ := Language.mem_mul.mp keyword
  obtain ⟨c, cs, starts, inName⟩ := (isStateName_keyword sec.kind).head
  have split : (sec.kind.keyword ++ ":").toList = c :: (cs ++ [':']) := by simp [starts]
  have some : (sec.kind.keyword ++ ":").toList ++ (body ++ more) ≠ [] := by simp [split]
  simp only [List.append_assoc] at ends
  rw [List.getLast?_append_of_ne_nil _ some] at ends
  refine ⟨before, _, by simp only [List.append_assoc], blank, some, ?_, ends⟩
  intro d head
  rw [split] at head
  obtain rfl : c = d := Option.some.inj head
  exact isBlank_of_isStateCharacter inName

end LastCharacter

end Pushdown.Format
