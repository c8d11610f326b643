import Pushdown.Proofs.Assembly
import Pushdown.Proofs.Faults

/-!
# The place of a diagnostic

A diagnostic counts lines and columns in what is left of a text when white space is taken off both
of its ends. The lines before the first that is not blank are no part of that.
-/

namespace Pushdown

namespace Format

variable {before text : List Char} {d : Diagnostic}

def lead (text : List Char) : List Char := text.takeWhile Text.isBlank

theorem lead_append_trim (text : List Char) : lead text ++ Text.trim text <+: text := by
  obtain ⟨trail, whole⟩ := trim_prefix text
  refine ⟨trail, ?_⟩
  rw [List.append_assoc, whole, lead, List.takeWhile_append_dropWhile]

theorem trim_append (blank : ∀ c ∈ before, Text.isBlank c = true) (text : List Char) :
    Text.trim (before ++ text) = Text.trim text := by
  unfold Text.trim
  rw [List.dropWhile_append_of_pos blank]

theorem lineOf_append (before text : List Char) (offset : Nat) :
    lineOf (before ++ text) (before.length + offset) = lineOf text offset + before.count '\n' := by
  unfold lineOf
  rw [List.take_length_add_append, List.count_append]
  omega

/-- What is wrong with the form of a text, and where. -/
def Diagnosed (text : List Char) (d : Diagnostic) : Prop :=
  sectionsOf text = .error d ∨ ∃ found, sectionsOf text = .ok found ∧
    checkRepetition text found = .error d

theorem Diagnosed.text_eq (diagnosed : Diagnosed text d) : d.text = text := by
  rcases diagnosed with failed | ⟨found, -, again⟩
  · unfold sectionsOf at failed
    split at failed
    · cases failed
    · exact congrArg Diagnostic.text (Except.error.inj failed).symm
  · unfold checkRepetition at again
    split at again
    · exact congrArg Diagnostic.text (Except.error.inj again).symm
    · cases again

end Format

namespace Definition

open Format

theorem ofSections_ne_malformed (sections : List Section) (d : Diagnostic) :
    ofSections sections ≠ .error (.malformed d) := by
  intro failed
  have completes := ofSections_completes sections
  rw [failed] at completes
  unfold Completes at completes
  split at completes
  · cases completes
  · obtain ⟨_, built⟩ := completes
    cases built

theorem check_ne_malformed (d : Definition) (diagnostic : Diagnostic) :
    d.check ≠ .error (.malformed diagnostic) := by
  intro failed
  obtain ⟨rank, found, -⟩ := check_eq_error.mp failed
  obtain ⟨text, fault⟩ := foundAt_eq_some.mp found
  cases fault

theorem diagnosed_of_ofText {text : String} {d : Diagnostic}
    (failed : ofText text = .error (.malformed d)) :
    text.utf8ByteSize ≤ sizeLimit ∧ Diagnosed (Text.trim text.toList) d := by
  unfold ofText at failed
  by_cases small : text.utf8ByteSize ≤ sizeLimit
  · rw [if_neg (Nat.not_lt.mpr small)] at failed
    dsimp only at failed
    refine ⟨small, ?_⟩
    rcases bind_eq_error.mp failed with unread | ⟨found, read, failed⟩
    · obtain ⟨_, departs, same⟩ := mapError_eq_error.mp unread
      obtain rfl := Error.malformed.inj same
      exact Or.inl departs
    · rw [mapError_eq_ok] at read
      rcases check_then_eq_error.mp failed with refused | ⟨-, failed⟩
      · obtain ⟨_, again, same⟩ := mapError_eq_error.mp refused
        obtain rfl := Error.malformed.inj same
        exact Or.inr ⟨found, read, again⟩
      · -- Behind the form of a text, nothing that is wrong with it has a place.
        rcases bind_eq_error.mp failed with lacking | ⟨whole, -, failed⟩
        · exact absurd lacking (ofSections_ne_malformed _ d)
        · rcases check_then_eq_error.mp failed with refused | ⟨-, accepted⟩
          · exact absurd refused (check_ne_malformed whole d)
          · cases accepted
  · rw [if_pos (Nat.lt_of_not_le small)] at failed
    cases failed

/-- What becomes of a text that is not too large depends on what is left of it alone. -/
theorem ofText_congr {text other : String} (small : text.utf8ByteSize ≤ sizeLimit)
    (small' : other.utf8ByteSize ≤ sizeLimit)
    (same : Text.trim text.toList = Text.trim other.toList) :
    ofText text = ofText other := by
  unfold ofText
  rw [if_neg (Nat.not_lt.mpr small), if_neg (Nat.not_lt.mpr small')]
  dsimp only
  rw [same]

def lineFeeds (n : Nat) : String := String.ofList (List.replicate n '\n')

/-- Lines in front of a malformed text leave its diagnostic as it is, with the place that it gives.
In the text that was given this place is further down, by those lines and by all that the text
itself starts with. -/
theorem place_despite_lines_before {text : String} {d : Diagnostic} {n : Nat}
    (failed : ofText text = .error (.malformed d))
    (small : (lineFeeds n ++ text).utf8ByteSize ≤ 65536) :
    ofText (lineFeeds n ++ text) = .error (.malformed d) ∧
      let white := lead text.toList
      List.replicate n '\n' ++ white ++ d.text <+: (lineFeeds n ++ text).toList ∧
        lineOf (List.replicate n '\n' ++ white ++ d.text) (n + white.length + d.start) =
          lineOf d.text d.start + white.count '\n' + n := by
  obtain ⟨fits, diagnosed⟩ := diagnosed_of_ofText failed
  have written : (lineFeeds n ++ text).toList = List.replicate n '\n' ++ text.toList := by
    rw [String.toList_append, lineFeeds, String.toList_ofList]
  have blank : ∀ c ∈ List.replicate n '\n', Text.isBlank c = true := by
    intro c member
    rw [List.eq_of_mem_replicate member]
    rfl
  refine ⟨?_, ?_, ?_⟩
  · rw [← failed]
    apply ofText_congr small fits
    rw [written, trim_append blank]
  · rw [written, diagnosed.text_eq, List.append_assoc, List.prefix_append_right_inj]
    exact lead_append_trim text.toList
  · have place := lineOf_append (List.replicate n '\n' ++ lead text.toList) d.text d.start
    rw [List.length_append, List.length_replicate, List.count_append, List.count_replicate_self]
      at place
    omega

/-- A name that is there twice, below one empty line and then below two. -/
theorem place_despite_lines_before_twice :
    let text := "\nname: A\nname: B"
    let d : Diagnostic := ⟨"name: A\nname: B".toList, 8, .repeated .name 15⟩
    ofText text = .error (.malformed d) ∧ ofText (lineFeeds 1 ++ text) = .error (.malformed d) ∧
      lineOf d.text d.start = 2 ∧ lineOf ('\n' :: '\n' :: d.text) 10 = 4 := by
  intro text d
  have failed : ofText text = .error (.malformed d) := by decide +kernel
  obtain ⟨again, -, place⟩ := place_despite_lines_before (n := 1) failed (by decide +kernel)
  have here : lineOf d.text d.start = 2 := by decide +kernel
  have white : lead text.toList = ['\n'] := by decide +kernel
  rw [white, here] at place
  exact ⟨failed, again, here, place⟩

/-- A line in front of a text does not move the place that its diagnostic gives. -/
theorem place_moved_by_lines_refuted : ¬ ∀ (text : String) (d : Diagnostic) (n : Nat),
    ofText text = .error (.malformed d) → (lineFeeds n ++ text).utf8ByteSize ≤ 65536 →
    ∃ d', ofText (lineFeeds n ++ text) = .error (.malformed d') ∧
      d'.problem.message = d.problem.message ∧
      lineOf d'.text d'.start = lineOf d.text d.start + n ∧
      columnOf d'.text d'.start = columnOf d.text d.start := by
  intro moved
  have failed : ofText "bogus" = .error (.malformed ⟨"bogus".toList, 0, .expected [.program]⟩) := by
    decide +kernel
  obtain ⟨d', failed', -, line, -⟩ := moved "bogus" _ 1 failed (by decide +kernel)
  have same : ofText (lineFeeds 1 ++ "bogus") =
      .error (.malformed ⟨"bogus".toList, 0, .expected [.program]⟩) := by decide +kernel
  rw [same] at failed'
  obtain rfl := Error.malformed.inj (Except.error.inj failed')
  exact absurd line (by decide)

end Definition

end Pushdown
