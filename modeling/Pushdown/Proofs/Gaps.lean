import Pushdown.Proofs.Layout
import Pushdown.Proofs.Scanning

/-!
# Gaps

What stands between the lines of a text that hold tokens: blanks, comments and ends of lines, read
character by character. A gap stays one when white space is taken off its front or its back.
-/

namespace Pushdown.Format

open Layout

/-- A text goes on with a rest after blanks, ends of lines, and comments with the end of theirs. -/
inductive Gap (rest : List Char) : List Char → Prop where
  | done : Gap rest rest
  | blank {c : Char} {text : List Char} : isInline c = true ∨ isNewline c = true → Gap rest text →
    Gap rest (c :: text)
  | comment {words text : List Char} : (∀ c ∈ words, isNewline c = false) →
    (∀ c ∈ text.head?, isNewline c = true) → Gap rest text → Gap rest ('#' :: words ++ text)

variable {text rest : List Char}

/-- A text does not go on with the end of a line. -/
def Inside (text : List Char) : Prop := ∀ c ∈ (skip text).head?, isNewline c = false

theorem skip_of_isNewline {c : Char} (newline : isNewline c = true) :
    skip (c :: text) = c :: text := by
  apply skip_eq_self
  rintro _ ⟨⟩
  exact solid_of_isNewline newline

theorem skip_of_head?_isNewline (ends : ∀ c ∈ text.head?, isNewline c = true) :
    skip text = text :=
  skip_eq_self fun c first => solid_of_isNewline (ends c first)

/-- Behind its blanks and its comment, a gap is over or goes on with the end of a line. -/
theorem Gap.skip_cases (gap : Gap rest text) : skip text = skip rest ∨
    ∃ c more, skip text = c :: more ∧ isNewline c = true ∧ Gap rest more := by
  induction gap with
  | done => exact Or.inl rfl
  | @blank c text char gap ih =>
    rcases char with inline | newline
    · have same : skip ([c] ++ text) = skip text := by
        apply skip_append
        simpa [isInline] using inline
      rwa [← same] at ih
    · exact Or.inr ⟨c, text, skip_of_isNewline newline, newline, gap⟩
  | @comment words text words_inline ends gap ih =>
    rw [skip_of_head?_isNewline ends] at ih
    rwa [skip_comment words_inline ends]

/-! ### Reading the ends of lines -/

/-- The end of a line leaves the rest of a gap, whether it takes one character or two. -/
theorem Gap.leads_newline {c : Char} {more : List Char} (gap : Gap rest more) (inside : Inside rest)
    (newline : isNewline c = true) (start : skip text = c :: more) :
    ∃ mid, Leads Pattern.newline text () mid ∧ Gap rest mid ∧ mid.length < (skip text).length := by
  rcases eq_of_isNewline newline with rfl | rfl
  · refine ⟨more, ?_, gap, by simp [start]⟩
    intro s first
    rw [start] at first
    exact ⟨s.drop 1, by simp [Pattern.newline, Pattern.scan, first], by simp [Source.drop, first]⟩
  · cases more with
    | nil =>
      refine ⟨[], ?_, gap, by simp [start]⟩
      intro s first
      rw [start] at first
      exact ⟨s.drop 1, by simp [Pattern.newline, Pattern.scan, first], by simp [Source.drop, first]⟩
    | cons d more =>
      -- A line feed behind a carriage return is taken with it, so the gap is shorter by two.
      by_cases double : d = '\n'
      · subst double
        have later : Gap rest more := by
          cases gap with
          | done => exact absurd (inside '\n' (by rw [skip_of_isNewline rfl]; rfl)) (by decide)
          | blank _ gap => exact gap
        have shorter : more.length < (skip text).length := by
          rw [start, List.length_cons, List.length_cons]
          omega
        refine ⟨more, ?_, later, shorter⟩
        intro s first
        rw [start] at first
        exact ⟨s.drop 2, by simp [Pattern.newline, Pattern.scan, first],
          by simp [Source.drop, first]⟩
      · refine ⟨d :: more, ?_, gap, by simp [start]⟩
        intro s first
        rw [start] at first
        exact ⟨s.drop 1, by simp [Pattern.newline, Pattern.scan, first, double],
          by simp [Source.drop, first]⟩

theorem Inside.stops_newline (inside : Inside text) : Stops Pattern.newline text := by
  intro s start
  cases left : skip text with
  | nil => simp [Pattern.newline, Pattern.scan, start, left]
  | cons c more =>
    have other := inside c (by rw [left]; rfl)
    simp only [isNewline, Bool.or_eq_false_iff, decide_eq_false_iff_not] at other
    simp [Pattern.newline, Pattern.scan, start, left, other.1, other.2]

theorem Gap.series (gap : Gap rest text) (inside : Inside rest) :
    ∃ units left, Series Pattern.newline units text left ∧ skip left = skip rest := by
  induction size : text.length using Nat.strong_induction_on generalizing text with
  | _ n ih =>
    rcases gap.skip_cases with finished | ⟨c, more, start, newline, gap⟩
    · have inside : Inside text := by rwa [Inside, finished]
      exact ⟨[], text, .stop inside.stops_newline, finished⟩
    · obtain ⟨mid, leads, gap, shorter⟩ := gap.leads_newline inside newline start
      have bound := length_skip_le text
      obtain ⟨units, left, series, same⟩ := ih mid.length (by omega) gap rfl
      exact ⟨() :: units, left, .next leads shorter series, same⟩

theorem Leads.congr {α : Type} {p : Pattern α} {a : α} {left : List Char}
    (leads : Leads p text a left) (same : skip left = skip rest) : Leads p text a rest := by
  intro s start
  obtain ⟨s', parsed, final⟩ := leads s start
  exact ⟨s', parsed, final.trans same⟩

theorem Gap.leads_many (gap : Gap rest text) (inside : Inside rest) :
    ∃ units, Leads Pattern.newline.many text units rest := by
  obtain ⟨units, left, series, same⟩ := gap.series inside
  exact ⟨units, series.leads.congr same⟩

/-- A text goes on with the end of its line, or is over. -/
def AtLineEnd (text : List Char) : Prop := ∀ c ∈ (skip text).head?, isNewline c = true

theorem Gap.leads_newlines (gap : Gap rest text) (inside : Inside rest) (ends : AtLineEnd text)
    (more : skip text ≠ []) : Leads newlines text () rest := by
  obtain ⟨c, start⟩ := Option.ne_none_iff_exists'.mp (mt List.head?_eq_none_iff.mp more)
  have newline : isNewline c = true := ends c start
  rcases gap.skip_cases with finished | ⟨c, later, start, newline, gap⟩
  · have other := inside c (by rwa [← finished])
    rw [newline] at other
    cases other
  · obtain ⟨mid, leads, gap, -⟩ := gap.leads_newline inside newline start
    obtain ⟨units, many⟩ := gap.leads_many inside
    exact ((leads.map List.cons).seq many).map _

theorem Inside.stops_newlines (inside : Inside text) : Stops newlines text :=
  (inside.stops_newline.map List.cons).seq.map _

/-! ### The gaps of a layout -/

theorem gap_blanks {before : List Char} (member : before ∈ blanks) (gap : Gap rest text) :
    Gap rest (before ++ text) := by
  induction before with
  | nil => exact gap
  | cons c before ih =>
    obtain ⟨inline, more⟩ := List.forall_mem_cons.mp member
    exact .blank (Or.inl (by simpa [isInline] using inline)) (ih more)

theorem gap_lineRest {before : List Char} (member : before ∈ lineRest)
    (ends : ∀ c ∈ text.head?, isNewline c = true) (gap : Gap rest text) :
    Gap rest (before ++ text) := by
  obtain ⟨inline, blank, remark, either, rfl⟩ := Language.mem_mul.mp member
  rw [List.append_assoc]
  apply gap_blanks blank
  rcases (Language.mem_add _ _ _).mp either with none | ⟨words, rfl, words_inline⟩
  · obtain rfl := (Language.mem_one _).mp none
    exact gap
  · exact .comment words_inline ends gap

theorem skip_lineRest {before : List Char} (member : before ∈ lineRest)
    (ends : ∀ c ∈ text.head?, isNewline c = true) : skip (before ++ text) = text := by
  obtain ⟨inline, blank, remark, either, rfl⟩ := Language.mem_mul.mp member
  rw [List.append_assoc, skip_append blank]
  rcases (Language.mem_add _ _ _).mp either with none | ⟨words, rfl, words_inline⟩
  · obtain rfl := (Language.mem_one _).mp none
    exact skip_of_head?_isNewline ends
  · exact skip_comment words_inline ends

theorem gap_lineBreak {before : List Char} (member : before ∈ lineBreak) (gap : Gap rest text) :
    Gap rest (before ++ text) := by
  rcases member with rfl | rfl | rfl
  · exact .blank (Or.inr rfl) gap
  · exact .blank (Or.inr rfl) gap
  · exact .blank (Or.inr rfl) (.blank (Or.inr rfl) gap)

theorem head?_lineBreak {before : List Char} (member : before ∈ lineBreak) :
    ∃ c more, before = c :: more ∧ isNewline c = true := by
  rcases member with rfl | rfl | rfl
  · exact ⟨'\n', [], rfl, rfl⟩
  · exact ⟨'\r', [], rfl, rfl⟩
  · exact ⟨'\r', ['\n'], rfl, rfl⟩

theorem gap_line {before : List Char} (member : before ∈ lineRest * lineBreak)
    (gap : Gap rest text) : Gap rest (before ++ text) := by
  obtain ⟨remark, written, ending, breaks, rfl⟩ := Language.mem_mul.mp member
  obtain ⟨c, more, rfl, newline⟩ := head?_lineBreak breaks
  rw [List.append_assoc]
  refine gap_lineRest written ?_ (gap_lineBreak breaks gap)
  rintro _ ⟨⟩
  exact newline

theorem gap_emptyLines {before : List Char} (member : before ∈ emptyLines) (gap : Gap rest text) :
    Gap rest (before ++ text) := by
  obtain ⟨lines, rfl, all⟩ := Language.mem_kstar.mp member
  induction lines with
  | nil => exact gap
  | cons line lines ih =>
    obtain ⟨first, others⟩ := List.forall_mem_cons.mp all
    rw [List.flatten_cons, List.append_assoc]
    exact gap_line first (ih others (Language.mem_kstar.mpr ⟨lines, rfl, others⟩))

theorem gap_lineEnds {before : List Char} (member : before ∈ lineEnds) (gap : Gap rest text) :
    Gap rest (before ++ text) := by
  obtain ⟨line, first, lines, others, rfl⟩ := Language.mem_mul.mp member
  rw [List.append_assoc]
  exact gap_line first (gap_emptyLines others gap)

theorem gap_document_end {before : List Char} (member : before ∈ emptyLines * lineRest) :
    Gap [] before := by
  obtain ⟨lines, empty, remark, last, rfl⟩ := Language.mem_mul.mp member
  have gap : Gap [] (remark ++ []) := gap_lineRest last nofun .done
  rw [List.append_nil] at gap
  exact gap_emptyLines empty gap

theorem skip_lineEnds {before : List Char} (member : before ∈ lineEnds) (text : List Char) :
    ∃ c more, skip (before ++ text) = c :: (more ++ text) ∧ isNewline c = true := by
  obtain ⟨line, first, lines, -, rfl⟩ := Language.mem_mul.mp member
  obtain ⟨remark, written, ending, breaks, rfl⟩ := Language.mem_mul.mp first
  obtain ⟨c, more, rfl, newline⟩ := head?_lineBreak breaks
  refine ⟨c, more ++ lines, ?_, newline⟩
  have ends : ∀ d ∈ (c :: more ++ (lines ++ text)).head?, isNewline d = true := by
    rintro _ ⟨⟩
    exact newline
  rw [List.append_assoc, List.append_assoc, skip_lineRest written ends]
  simp

/-! ### White space at the ends of a text -/

theorem isBlank_of_char {c : Char} (char : isInline c = true ∨ isNewline c = true) :
    Text.isBlank c = true := by
  simp only [isInline, isNewline, Bool.or_eq_true, decide_eq_true_eq] at char
  rcases char with (rfl | rfl) | rfl | rfl <;> rfl

theorem Gap.dropWhile_isBlank (gap : Gap rest text)
    (solid : ∀ c ∈ rest.head?, Text.isBlank c = false) :
    Gap rest (text.dropWhile Text.isBlank) := by
  induction gap with
  | done =>
    cases rest with
    | nil => exact .done
    | cons c rest =>
      rw [List.dropWhile_cons, solid c rfl]
      exact .done
  | blank char _ ih =>
    rw [List.dropWhile_cons, isBlank_of_char char]
    exact ih
  | comment words_inline ends gap => exact .comment words_inline ends gap

/-- What ends a text may be cut anywhere, inside a comment too. -/
theorem Gap.cut {before after : List Char} (gap : Gap [] text) (split : text = before ++ after) :
    Gap [] before := by
  induction gap generalizing before with
  | done =>
    obtain ⟨rfl, -⟩ := List.append_eq_nil_iff.mp split.symm
    exact .done
  | @blank c text char _ ih =>
    cases before with
    | nil => exact .done
    | cons d before =>
      obtain ⟨rfl, tails⟩ := List.cons.inj split
      exact .blank char (ih tails)
  | @comment words text words_inline ends _ ih =>
    cases before with
    | nil => exact .done
    | cons d before =>
      obtain ⟨rfl, tails⟩ := List.cons.inj split
      -- The cut is behind the comment, or it leaves a part of the comment.
      rcases List.append_eq_append_iff.mp tails with ⟨more, rfl, rest⟩ | ⟨more, rfl, -⟩
      · refine .comment words_inline ?_ (ih rest)
        intro c first
        exact ends c (by rw [rest, List.head?_append, first]; rfl)
      · have kept : ∀ c ∈ before, isNewline c = false := by
          exact fun c member => words_inline c (List.mem_append_left _ member)
        have cut : Gap [] ('#' :: before ++ []) := .comment kept nofun .done
        rwa [List.append_nil] at cut

theorem Gap.trimEnd (gap : Gap [] text) :
    Gap [] (text.reverse.dropWhile Text.isBlank).reverse := by
  have parts := List.takeWhile_append_dropWhile (p := Text.isBlank) (l := text.reverse)
  have reversed := congrArg List.reverse parts
  rw [List.reverse_append, List.reverse_reverse] at reversed
  exact gap.cut reversed.symm

/-- A text that is not empty starts and ends with characters that are not blank. -/
structure Trimmed (text : List Char) : Prop where
  some : text ≠ []
  head : ∀ c ∈ text.head?, Text.isBlank c = false
  last : ∀ c ∈ text.getLast?, Text.isBlank c = false

theorem dropWhile_append_of_head? {inClass : Char → Bool} (before : List Char)
    (stops : ∀ c ∈ text.head?, inClass c = false) :
    (before ++ text).dropWhile inClass = before.dropWhile inClass ++ text := by
  have kept : text.dropWhile inClass = text := by
    cases text with
    | nil => rfl
    | cons c text => rw [List.dropWhile_cons, stops c rfl]; rfl
  rw [List.dropWhile_append, kept]
  split
  · next none => rw [List.isEmpty_iff.mp none, List.nil_append]
  · rfl

/-- Trimming takes white space off what stands before and behind a trimmed text. -/
theorem Trimmed.trim_append {core : List Char} (trimmed : Trimmed core) (before after : List Char) :
    Text.trim (before ++ core ++ after) = before.dropWhile Text.isBlank ++ core ++
      (after.reverse.dropWhile Text.isBlank).reverse := by
  have front : ∀ c ∈ (core ++ after).head?, Text.isBlank c = false := by
    rw [List.head?_append_of_ne_nil _ trimmed.some]
    exact trimmed.head
  have back : ∀ c ∈ (core.reverse ++ (before.dropWhile Text.isBlank).reverse).head?,
      Text.isBlank c = false := by
    rw [List.head?_append_of_ne_nil _ (List.reverse_ne_nil_iff.mpr trimmed.some),
      List.head?_reverse]
    exact trimmed.last
  unfold Text.trim
  rw [List.append_assoc, dropWhile_append_of_head? before front, List.reverse_append,
    List.reverse_append, List.append_assoc, dropWhile_append_of_head? after.reverse back]
  simp

theorem trimmed_of_trim_eq (some : text ≠ []) (same : Text.trim text = text) : Trimmed text := by
  unfold Text.trim at same
  have tail : text.reverse = (text.dropWhile Text.isBlank).reverse.dropWhile Text.isBlank := by
    conv_lhs => rw [← same]
    rw [List.reverse_reverse]
  have whole : text.dropWhile Text.isBlank = text := by
    apply (List.dropWhile_suffix Text.isBlank).sublist.eq_of_length_le
    have shorter := (List.dropWhile_sublist Text.isBlank
      (l := (text.dropWhile Text.isBlank).reverse)).length_le
    rw [← tail] at shorter
    simpa using shorter
  refine ⟨some, ?_, ?_⟩
  · intro c first
    have kept := List.head?_dropWhile_not Text.isBlank text
    rwa [whole, first] at kept
  · intro c final
    have kept := List.head?_dropWhile_not Text.isBlank (text.dropWhile Text.isBlank).reverse
    rwa [← tail, List.head?_reverse, final] at kept

end Pushdown.Format
