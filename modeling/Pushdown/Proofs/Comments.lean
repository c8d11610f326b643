import Pushdown.Proofs.Carrying
import Pushdown.Proofs.Legible

/-!
# Comments at the ends of a text

Trimming takes the white space of Unicode off the ends of a text; between its ends, the grammar
passes over spaces, tabs and ends of lines, and any other blank character is a symbol there. A
comment that is added at an end leaves the definition as it is, if what trimming took off that end
means nothing to the grammar.
-/

namespace Pushdown

namespace Text

variable {before after text : List Char}

def trimStart (text : List Char) : List Char := text.dropWhile isBlank

def trimEnd (text : List Char) : List Char := (text.reverse.dropWhile isBlank).reverse

theorem trim_eq (text : List Char) : trim text = trimEnd (trimStart text) := rfl

theorem trimStart_append (some : trimStart before ≠ []) (after : List Char) :
    trimStart (before ++ after) = trimStart before ++ after := by
  rw [trimStart, List.dropWhile_append, if_neg (by simpa [trimStart] using some)]
  rfl

theorem trimEnd_append (before : List Char) (some : trimEnd after ≠ []) :
    trimEnd (before ++ after) = before ++ trimEnd after := by
  have some : ¬ (after.reverse.dropWhile isBlank).isEmpty := by simpa [trimEnd] using some
  rw [trimEnd, List.reverse_append, List.dropWhile_append, if_neg some, List.reverse_append,
    List.reverse_reverse]
  rfl

theorem trimEnd_cons {c : Char} (visible : isBlank c = false) (text : List Char) :
    trimEnd (c :: text) = c :: trimEnd text := by
  have stops : ∀ d ∈ [c].head?, isBlank d = false := by
    rintro _ ⟨⟩
    exact visible
  rw [trimEnd, List.reverse_cons, Format.dropWhile_append_of_head? text.reverse stops,
    List.reverse_append]
  rfl

theorem trimStart_ne_nil (some : trim text ≠ []) : trimStart text ≠ [] := by
  intro none
  rw [trim_eq, none] at some
  exact some rfl

theorem trimEnd_ne_nil (some : trim text ≠ []) : trimEnd text ≠ [] := by
  intro none
  have blank : ∀ c ∈ text, isBlank c = true := by
    simpa [trimEnd] using none
  exact trimStart_ne_nil some (List.dropWhile_eq_nil_iff.mpr blank)

theorem trimStart_eq (text : List Char) :
    trimStart text = trim text ++ ((trimStart text).reverse.takeWhile isBlank).reverse := by
  have parts := congrArg List.reverse
    (List.takeWhile_append_dropWhile (p := isBlank) (l := (trimStart text).reverse))
  rw [List.reverse_append, List.reverse_reverse] at parts
  exact parts.symm

theorem trimEnd_eq (some : trim text ≠ []) :
    trimEnd text = text.takeWhile isBlank ++ trim text := by
  have parts := List.takeWhile_append_dropWhile (p := isBlank) (l := text)
  conv_lhs => rw [← parts]
  exact trimEnd_append _ some

end Text

namespace Format

variable {tail text text' : List Char}

/-- The white space that the grammar passes over. -/
def isPassed (c : Char) : Bool := isInline c || isNewline c

theorem Gap.append_passed {before rest : List Char} (passed : ∀ c ∈ before, isPassed c = true)
    (gap : Gap rest text) : Gap rest (before ++ text) := by
  induction before with
  | nil => exact gap
  | cons c before ih =>
    obtain ⟨first, more⟩ := List.forall_mem_cons.mp passed
    exact .blank (by simpa [isPassed] using first) (ih more)

theorem trail_passed (passed : ∀ c ∈ tail, isPassed c = true) : Trail tail := by
  have gap : Gap [] (tail ++ []) := .append_passed passed .done
  rw [List.append_nil] at gap
  refine ⟨gap, fun c first => ?_⟩
  have kept := List.head?_dropWhile_not isInline tail
  rw [first] at kept
  have member := (List.dropWhile_sublist isInline).subset (List.mem_of_head? first)
  simpa [isPassed, kept] using passed c member

theorem trail_comment {words : List Char} (inline : ∀ c ∈ words, isNewline c = false) :
    Trail ('\n' :: '#' :: words) := by
  have gap : Gap [] ('#' :: words ++ []) := .comment inline nofun .done
  rw [List.append_nil] at gap
  refine ⟨.blank (Or.inr rfl) gap, ?_⟩
  rintro _ ⟨⟩
  rfl

end Format

namespace Definition

open Format

variable {d : Definition} {text comment : String} {body body' : List Char}

def ReadOff (body : List Char) (d : Definition) : Prop :=
  ∃ found, sectionsOf body = .ok found ∧ checkRepetition body found = .ok () ∧
    ofSections (found.map Prod.snd) = .ok d ∧ d.check = .ok ()

theorem ofText_iff_readOff :
    ofText text = .ok d ↔ text.utf8ByteSize ≤ sizeLimit ∧ ReadOff (Text.trim text.toList) d :=
  ofText_eq_ok

theorem readOff_iff : ReadOff body d ↔ ∃ sections, HasSections body sections ∧
    (sections.map Section.kind).Nodup ∧ ofSections sections = .ok d ∧ d.check = .ok () := by
  have repetition (found : List (Span × Section)) : checkRepetition body found = .ok () ↔
      ((found.map Prod.snd).map Section.kind).Nodup := by
    rw [List.map_map]
    unfold checkRepetition
    cases first : Format.firstRepeated [] found with
    | none => exact iff_of_true rfl (Format.firstRepeated_eq_none.mp first).1
    | some entry =>
      refine iff_of_false nofun fun distinct => ?_
      have none := Format.firstRepeated_eq_none.mpr ⟨distinct, fun _ _ => List.not_mem_nil⟩
      rw [first] at none
      cases none
  constructor
  · rintro ⟨found, read, distinct, built, passed⟩
    exact ⟨_, ⟨found, read, rfl⟩, (repetition found).mp distinct, built, passed⟩
  · rintro ⟨_, ⟨found, read, rfl⟩, distinct, built, passed⟩
    exact ⟨found, read, (repetition found).mpr distinct, built, passed⟩

theorem readOff_append {tail : List Char} (trail : Trail tail) :
    ReadOff (body ++ tail) d ↔ ReadOff body d := by
  simp only [readOff_iff, trail.hasSections_append]

theorem readOff_gap (gap : Gap body body') : ReadOff body' d ↔ ReadOff body d := by
  simp only [readOff_iff, gap.hasSections]

theorem ReadOff.ne_nil (read : ReadOff body d) : body ≠ [] := by
  rintro rfl
  obtain ⟨found, empty, -, built, -⟩ := read
  have none : sectionsOf [] = .ok [] := by decide
  obtain rfl := Except.ok.inj (none.symm.trans empty)
  cases built

theorem trim_comment_after (some : Text.trim text.toList ≠ []) (comment : String) :
    Text.trim (text ++ "\n#" ++ comment).toList =
      Text.trimStart text.toList ++ '\n' :: '#' :: Text.trimEnd comment.toList := by
  have written : (text ++ "\n#" ++ comment).toList =
      text.toList ++ ['\n'] ++ '#' :: comment.toList := by
    simp
  have hash : Text.trimEnd ('#' :: comment.toList) = '#' :: Text.trimEnd comment.toList :=
    Text.trimEnd_cons (by decide) _
  rw [written, Text.trim_eq, List.append_assoc, Text.trimStart_append (Text.trimStart_ne_nil some),
    ← List.append_assoc, Text.trimEnd_append _ (by simp [hash]), hash, List.append_assoc]
  rfl

theorem trim_comment_before (some : Text.trim text.toList ≠ []) (comment : String) :
    Text.trim ("#" ++ comment ++ "\n" ++ text).toList =
      '#' :: comment.toList ++ '\n' :: Text.trimEnd text.toList := by
  have written : ("#" ++ comment ++ "\n" ++ text).toList =
      '#' :: comment.toList ++ ['\n'] ++ text.toList := by
    simp
  have front : Text.trimStart ('#' :: comment.toList ++ ['\n'] ++ text.toList) =
      '#' :: comment.toList ++ ['\n'] ++ text.toList := rfl
  rw [written, Text.trim_eq, front, Text.trimEnd_append _ (Text.trimEnd_ne_nil some),
    List.append_assoc]
  rfl

/-- White space that the grammar passes over need not be trimmed off the end of a text. -/
theorem readOff_trimStart {text : List Char}
    (passed : ∀ c ∈ text.reverse.takeWhile Text.isBlank, isPassed c = true) :
    ReadOff (Text.trimStart text) d ↔ ReadOff (Text.trim text) d := by
  rw [Text.trimStart_eq]
  refine readOff_append (trail_passed fun c member => passed c ?_)
  obtain ⟨more, split⟩ : (Text.trimStart text).reverse <+: text.reverse :=
    List.reverse_prefix.mpr (List.dropWhile_suffix _)
  have member := List.mem_reverse.mp member
  rw [← split, List.takeWhile_append]
  split
  · exact List.mem_append_left _ ((List.takeWhile_sublist _).subset member)
  · exact member

theorem readOff_trimEnd {text : List Char} (some : Text.trim text ≠ [])
    (passed : ∀ c ∈ text.takeWhile Text.isBlank, isPassed c = true) :
    ReadOff (Text.trimEnd text) d ↔ ReadOff (Text.trim text) d := by
  rw [Text.trimEnd_eq some]
  exact readOff_gap (.append_passed passed .done)

/-- A comment line behind a text, or before it, leaves the definition as it is just if the text is
read without being trimmed at that end. This is so if the white space at that end is made of spaces,
tabs and ends of lines. -/
theorem ofText_between_comments (read : ofText text = .ok d)
    (inline : ∀ c ∈ comment.toList, c ≠ '\r' ∧ c ≠ '\n') :
    ((text ++ "\n#" ++ comment).utf8ByteSize ≤ 65536 →
      (ofText (text ++ "\n#" ++ comment) = .ok d ↔ ReadOff (Text.trimStart text.toList) d) ∧
      ((∀ c ∈ text.toList.reverse.takeWhile Text.isBlank, isPassed c = true) →
        ofText (text ++ "\n#" ++ comment) = .ok d)) ∧
    (("#" ++ comment ++ "\n" ++ text).utf8ByteSize ≤ 65536 →
      (ofText ("#" ++ comment ++ "\n" ++ text) = .ok d ↔ ReadOff (Text.trimEnd text.toList) d) ∧
      ((∀ c ∈ text.toList.takeWhile Text.isBlank, isPassed c = true) →
        ofText ("#" ++ comment ++ "\n" ++ text) = .ok d)) := by
  obtain ⟨-, core⟩ := ofText_iff_readOff.mp read
  have some := core.ne_nil
  have inline : ∀ c ∈ comment.toList, isNewline c = false :=
    fun c member => not_isNewline_iff.mpr (inline c member)
  refine ⟨fun small => ?_, fun small => ?_⟩
  · have words : ∀ c ∈ Text.trimEnd comment.toList, isNewline c = false := by
      intro c member
      have among := (List.dropWhile_sublist _).subset (List.mem_reverse.mp member)
      exact inline c (List.mem_reverse.mp among)
    have whole : ofText (text ++ "\n#" ++ comment) = .ok d ↔
        ReadOff (Text.trimStart text.toList) d := by
      rw [ofText_iff_readOff, sizeLimit, and_iff_right small, trim_comment_after some]
      exact readOff_append (trail_comment words)
    exact ⟨whole, fun passed => whole.mpr ((readOff_trimStart passed).mpr core)⟩
  · have whole : ofText ("#" ++ comment ++ "\n" ++ text) = .ok d ↔
        ReadOff (Text.trimEnd text.toList) d := by
      rw [ofText_iff_readOff, sizeLimit, and_iff_right small, trim_comment_before some]
      refine readOff_gap (.comment inline ?_ (.blank (Or.inr rfl) .done))
      rintro _ ⟨⟩
      rfl
    exact ⟨whole, fun passed => whole.mpr ((readOff_trimEnd some passed).mpr core)⟩

/-- A text with blank lines at its front and with blanks at its end. -/
theorem ofText_between_comments_spaced :
    let text := "\r\n\nname: A\nstates: p\ninput: a\naccept: either\nrules: # none \t\n"
    ∃ d, ofText text = .ok d ∧ ofText (text ++ "\n#" ++ " end #") = .ok d ∧
      ofText ("#" ++ " end #" ++ "\n" ++ text) = .ok d := by
  intro text
  obtain ⟨d, read⟩ := exists_of_isOk (ofText text) (by decide +kernel)
  have inline : ∀ c ∈ " end #".toList, c ≠ '\r' ∧ c ≠ '\n' := by simp
  obtain ⟨after, before⟩ := ofText_between_comments read inline
  exact ⟨d, read, (after (by decide +kernel)).2 (List.all_eq_true.mp (by decide +kernel)),
    (before (by decide +kernel)).2 (List.all_eq_true.mp (by decide +kernel))⟩

/-- A no-break space is trimmed off the ends of a text, but it is a symbol before a comment, and
behind a comment it is in the way of the first section. -/
theorem ofText_between_comments_refuted :
    (¬ ∀ (text comment : String) (d : Definition), ofText text = .ok d →
      (∀ c ∈ comment.toList, c ≠ '\r' ∧ c ≠ '\n') →
      (text ++ "\n#" ++ comment).utf8ByteSize ≤ 65536 →
      ofText (text ++ "\n#" ++ comment) = .ok d) ∧
    ¬ ∀ (text comment : String) (d : Definition), ofText text = .ok d →
      (∀ c ∈ comment.toList, c ≠ '\r' ∧ c ≠ '\n') →
      ("#" ++ comment ++ "\n" ++ text).utf8ByteSize ≤ 65536 →
      ofText ("#" ++ comment ++ "\n" ++ text) = .ok d := by
  obtain ⟨text, text_eq⟩ : ∃ text, text = "\u00a0name: A\nstates: p\ninput: a\nstack: X\n" ++
    "accept: either\nrules:\n  p, a, X -> p, X\u00a0" := ⟨_, rfl⟩
  obtain ⟨d, read⟩ := exists_of_isOk (ofText text) (by rw [text_eq]; decide +kernel)
  constructor
  · intro claim
    have kept := claim text "" d read (by simp) (by rw [text_eq]; decide +kernel)
    have refused : (ofText (text ++ "\n#" ++ "")).isOk = false := by rw [text_eq]; decide +kernel
    rw [kept] at refused
    cases refused
  · intro claim
    have kept := claim text "" d read (by simp) (by rw [text_eq]; decide +kernel)
    have refused : (ofText ("#" ++ "" ++ "\n" ++ text)).isOk = false := by
      rw [text_eq]
      decide +kernel
    rw [kept] at refused
    cases refused

end Definition

end Pushdown
