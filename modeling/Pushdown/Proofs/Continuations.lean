import Pushdown.Proofs.Documents

/-!
# Continuations

What is read off a text is read off it too when lines without tokens follow. Where a text is over,
the longer one goes on with blanks, ends of lines and comments at most, and a pattern that stops at
the end of a text stops there as well.
-/

namespace Pushdown.Format

open Pattern

variable {tail text text' mid rest rest' : List Char}

/-! ### Gaps -/

theorem Gap.trans (first : Gap mid text) (second : Gap rest mid) : Gap rest text := by
  induction first with
  | done => exact second
  | blank char _ ih => exact .blank char ih
  | comment words_inline ends _ ih => exact .comment words_inline ends ih

theorem inside_takeWhile (text : List Char) :
    ∀ c ∈ text.takeWhile (!isNewline ·), isNewline c = false := by
  intro c member
  simpa using List.mem_takeWhile_imp member

theorem ends_dropWhile (text : List Char) :
    ∀ c ∈ (text.dropWhile (!isNewline ·)).head?, isNewline c = true := by
  intro c first
  have kept := List.head?_dropWhile_not (!isNewline ·) text
  rw [first] at kept
  simpa using kept

theorem skip_hash (text : List Char) : skip ('#' :: text) = text.dropWhile (!isNewline ·) := by
  have parts := List.takeWhile_append_dropWhile (p := (!isNewline ·)) (l := text)
  have behind := skip_comment (inside_takeWhile text) (ends_dropWhile text)
  rwa [List.cons_append, parts] at behind

theorem gap_skip (text : List Char) : Gap (skip text) text := by
  suffices behind : Gap (skip text) (text.dropWhile isInline) by
    have gap := gap_blanks (inline_takeWhile text) behind
    rwa [List.takeWhile_append_dropWhile] at gap
  unfold skip
  split
  · next comment =>
    obtain ⟨words, starts⟩ := List.head?_eq_some_iff.mp comment
    have parts := List.takeWhile_append_dropWhile (p := (!isNewline ·)) (l := words)
    have gap : Gap _ ('#' :: _ ++ words.dropWhile (!isNewline ·)) :=
      .comment (inside_takeWhile words) (ends_dropWhile words) .done
    rw [List.cons_append, parts] at gap
    rw [starts]
    exact gap
  · exact .done

/-- Every text leads over a gap to tokens or to its end. -/
theorem exists_gap (text : List Char) : ∃ rest, Gap rest text ∧ Inside rest ∧ skip rest = rest := by
  -- By the length of the text: the end of a line is shorter by that character.
  induction size : text.length using Nat.strong_induction_on generalizing text with
  | _ n ih =>
    have gap := gap_skip text
    by_cases inside : Inside text
    · exact ⟨skip text, gap, by rwa [Inside, skip_skip], skip_skip text⟩
    · obtain ⟨c, first, newline⟩ : ∃ c ∈ (skip text).head?, isNewline c = true := by
        simpa [Inside] using inside
      obtain ⟨more, starts⟩ := List.head?_eq_some_iff.mp first
      have shorter := length_skip_le text
      rw [starts, List.length_cons] at shorter
      obtain ⟨rest, later, inside, same⟩ := ih more.length (by omega) more rfl
      rw [starts] at gap
      exact ⟨rest, gap.trans (.blank (Or.inr newline) later), inside, same⟩

theorem Gap.skipped (gap : Gap [] text) : Gap [] (skip text) := by
  rcases gap.skip_cases with finished | ⟨c, more, start, newline, later⟩
  · rw [finished]
    exact .done
  · rw [start]
    exact .blank (Or.inr newline) later

/-- What is behind a gap that leads to tokens has no say in the gap. -/
theorem Gap.append (gap : Gap rest text) (some : rest ≠ []) (tail : List Char) :
    Gap (rest ++ tail) (text ++ tail) := by
  induction gap with
  | done => exact .done
  | blank char _ ih => exact .blank char ih
  | @comment words text words_inline ends gap ih =>
    have goes : text ≠ [] := by
      rintro rfl
      cases gap
      exact some rfl
    rw [List.append_assoc]
    refine .comment words_inline ?_ ih
    rwa [List.head?_append_of_ne_nil _ goes]

/-! ### Texts that go on -/

/-- Blanks, ends of lines and comments, with no comment before the first end of a line. -/
structure Trail (tail : List Char) : Prop where
  gap : Gap [] tail
  turns : ∀ c ∈ (tail.dropWhile isInline).head?, isNewline c = true

/-- One text goes on where another is over. As long as tokens are left, the two agree up to the end
of the shorter one; when none are, the longer one holds none either. -/
inductive Continues (tail text text' : List Char) : Prop where
  | within : skip text ≠ [] → skip text' = skip text ++ tail → Continues tail text text'
  | beyond : skip text = [] → Gap [] text' → Continues tail text text'

/-- One text goes on where another is over, but no longer. -/
def Exact (tail text text' : List Char) : Prop :=
  Continues tail text text' ∧ (skip text = [] → skip text' = [])

theorem Trail.skip_eq (trail : Trail tail) : skip tail = tail.dropWhile isInline := by
  refine if_neg fun comment => ?_
  have newline := trail.turns '#' comment
  cases newline

/-- A comment that ends a text takes in the blanks behind it, and no more. -/
theorem Trail.gap_comment (trail : Trail tail) {words : List Char}
    (words_inline : ∀ c ∈ words, isNewline c = false) : Gap [] ('#' :: words ++ tail) := by
  have parts := List.takeWhile_append_dropWhile (p := isInline) (l := tail)
  have longer : ∀ c ∈ words ++ tail.takeWhile isInline, isNewline c = false := by
    intro c member
    rcases List.mem_append.mp member with inside | blank
    · exact words_inline c inside
    · rcases inline_takeWhile tail c blank with rfl | rfl <;> decide
  have later : Gap [] (tail.dropWhile isInline) := trail.skip_eq ▸ trail.gap.skipped
  have gap := Gap.comment longer trail.turns later
  rwa [List.cons_append, List.append_assoc, parts] at gap

theorem Trail.gap_append (trail : Trail tail) (gap : Gap [] text) : Gap [] (text ++ tail) := by
  induction gap with
  | done => exact trail.gap
  | blank char _ ih => exact .blank char ih
  | @comment words text words_inline ends _ ih =>
    by_cases ended : text = []
    · -- The comment goes on in the tail, up to the first end of a line there.
      subst ended
      rw [List.append_nil]
      exact trail.gap_comment words_inline
    · rw [List.append_assoc]
      refine .comment words_inline ?_ ih
      rwa [List.head?_append_of_ne_nil _ ended]

theorem Trail.continues (trail : Trail tail) (text : List Char) :
    Continues tail text (text ++ tail) := by
  by_cases ended : skip text = []
  · refine .beyond ended (trail.gap_append ?_)
    have gap := gap_skip text
    rwa [ended] at gap
  · refine .within ended ?_
    have parts := List.takeWhile_append_dropWhile (p := isInline) (l := text)
    obtain ⟨core, core_eq⟩ : ∃ core, core = text.dropWhile isInline := ⟨_, rfl⟩
    rw [← core_eq] at parts
    have inline := inline_takeWhile text
    rw [← parts, skip_append inline] at ended ⊢
    rw [List.append_assoc, skip_append inline]
    have head : ∀ c ∈ core.head?, isInline c = false := by
      intro c first
      have kept := List.head?_dropWhile_not isInline text
      rwa [← core_eq, first] at kept
    cases core with
    | nil => exact absurd rfl ended
    | cons c core =>
      by_cases comment : c = '#'
      · subst comment
        rw [skip_hash] at ended ⊢
        rw [List.cons_append, skip_hash, List.dropWhile_append, if_neg (by simpa using ended)]
      · have blank := head c rfl
        simp only [isInline, Bool.or_eq_false_iff, decide_eq_false_iff_not] at blank
        have solid : IsSolid c := ⟨blank.1, blank.2, comment⟩
        have same (more : List Char) : skip (c :: more) = c :: more := by
          apply skip_eq_self
          rintro _ ⟨⟩
          exact solid
        rw [List.cons_append, same, same, List.cons_append]

theorem Continues.skipped (continues : Continues tail text text') :
    Continues tail (skip text) (skip text') := by
  cases continues with
  | within some same =>
    refine .within (by rwa [skip_skip]) ?_
    rw [skip_skip, skip_skip, same]
  | beyond ended gap => exact .beyond (by rw [ended]; rfl) gap.skipped

theorem Exact.skipped (exact : Exact tail text text') : Exact tail (skip text) (skip text') := by
  refine ⟨exact.1.skipped, ?_⟩
  rw [skip_skip, skip_skip]
  exact exact.2

theorem Exact.finished_iff (exact : Exact tail text text') : skip text' = [] ↔ skip text = [] := by
  refine ⟨fun none => ?_, exact.2⟩
  rcases exact.1 with ⟨some, same⟩ | ⟨ended, -⟩
  · rw [none] at same
    exact absurd (List.append_eq_nil_iff.mp same.symm).1 some
  · exact ended

/-- Two texts of which one goes on stand at the end of a line both, or before the same token. -/
theorem Continues.cases_line (continues : Continues tail text text') :
    AtLineEnd text ∧ AtLineEnd text' ∨ ∃ c more, isNewline c = false ∧ skip text = c :: more ∧
      skip text' = c :: more ++ tail := by
  cases continues with
  | within some same =>
    obtain ⟨c, more, starts⟩ := List.exists_cons_of_ne_nil some
    rw [starts] at same
    cases newline : isNewline c with
    | true => simp [AtLineEnd, starts, same, newline]
    | false => exact Or.inr ⟨c, more, newline, starts, same⟩
  | beyond ended gap => exact Or.inl ⟨by simp [AtLineEnd, ended], gap.atLineEnd⟩

/-- The gaps at the head of two such texts lead to the same tokens, or both to the end. -/
theorem Trail.gaps (trail : Trail tail) (continues : Continues tail text text') :
    ∃ rest rest', (Gap rest text ∧ Inside rest) ∧ (Gap rest' text' ∧ Inside rest') ∧
      Exact tail rest rest' := by
  have last : Inside [] := nofun
  cases continues with
  | beyond ended gap =>
    have here := gap_skip text
    rw [ended] at here
    exact ⟨[], [], ⟨here, last⟩, ⟨gap, last⟩, .beyond rfl .done, id⟩
  | within some same =>
    obtain ⟨rest, gap, inside, closed⟩ := exists_gap (skip text)
    have whole := (gap_skip text).trans gap
    by_cases ended : rest = []
    · subst ended
      have gap' := (gap_skip text').trans (same ▸ trail.gap_append gap)
      exact ⟨[], [], ⟨whole, last⟩, ⟨gap', last⟩, .beyond rfl .done, id⟩
    · have gap' := (gap_skip text').trans (same ▸ gap.append ended tail)
      have solid : ∀ c ∈ (rest ++ tail).head?, IsSolid c := by
        rw [List.head?_append_of_ne_nil _ ended, ← closed]
        exact solid_of_head?_skip rest
      have closed' := skip_eq_self solid
      refine ⟨rest, rest ++ tail, ⟨whole, inside⟩, ⟨gap', ?_⟩, .within ?_ ?_, ?_⟩
      · rw [Inside, closed', List.head?_append_of_ne_nil _ ended, ← closed]
        exact inside
      · rwa [closed]
      · rw [closed', closed]
      · exact fun none => absurd (closed.symm.trans none) ended

end Pushdown.Format
