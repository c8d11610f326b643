import Pushdown.Proofs.Documents

/-!
# Progress

Every pattern leaves what it does not take, so a repeated one comes to an end.
-/

namespace Pushdown.Format

open Pattern

variable {α β : Type}

/-- A pattern takes some characters at least whenever it reads a value. -/
def Takes (n : Nat) (p : Pattern α) : Prop :=
  ∀ s a s', p.parse s = some (a, s') → s'.rest.length + n ≤ s.rest.length

section Takes

variable {m n : Nat} {p : Pattern α} {q : Pattern β}

theorem Takes.map (takes : Takes n p) (f : α → β) : Takes n (f <$> p) := by
  intro s b s' parsed
  rw [parse_map, Option.map_eq_some_iff] at parsed
  obtain ⟨⟨a, rest⟩, read, same⟩ := parsed
  obtain ⟨-, rfl⟩ := Prod.mk.inj same
  exact takes s a rest read

theorem length_skipBlanks_le (s : Source) : (skipBlanks s).rest.length ≤ s.rest.length := by
  rw [rest_skipBlanks]
  exact length_skip_le s.rest

theorem Takes.andThen (first : Takes m p) (second : Takes n q) : Takes (m + n) (p.andThen q) := by
  intro s found s' parsed
  rw [parse_andThen, Option.bind_eq_some_iff] at parsed
  obtain ⟨⟨a, mid⟩, read, parsed⟩ := parsed
  obtain ⟨⟨b, rest⟩, read', same⟩ := Option.map_eq_some_iff.mp parsed
  obtain ⟨-, rfl⟩ := Prod.mk.inj same
  have before := first s a mid read
  have after := second (skipBlanks mid) b rest read'
  have blanks := length_skipBlanks_le mid
  omega

theorem Takes.seq {p : Pattern (α → β)} {q : Pattern α} (first : Takes m p) (second : Takes n q) :
    Takes (m + n) (p <*> q) :=
  (first.andThen second).map _

theorem Takes.seqLeft (first : Takes m p) (second : Takes n q) : Takes (m + n) (p <* q) :=
  (first.andThen second).map _

theorem Takes.seqRight (first : Takes m p) (second : Takes n q) : Takes (m + n) (p *> q) :=
  (first.andThen second).map _

theorem Takes.orElse {p q : Pattern α} (first : Takes n p) (second : Takes n q) :
    Takes n (p <|> q) := by
  intro s a s' parsed
  rw [parse_orElse] at parsed
  cases read : p.parse s with
  | none => exact second s a s' (by rwa [read] at parsed)
  | some found => exact first s a s' (by rwa [read] at parsed ⊢)

theorem Takes.le (takes : Takes n p) (fewer : m ≤ n) : Takes m p := by
  intro s a s' parsed
  have taken := takes s a s' parsed
  omega

theorem Takes.weak (takes : Takes n p) : Takes 0 p := takes.le (Nat.zero_le n)

theorem Takes.optional (takes : Takes 0 p) : Takes 0 p.optional := by
  intro s found s' parsed
  unfold Pattern.optional at parsed
  dsimp only at parsed
  split at parsed
  · next a rest read =>
    obtain ⟨-, rfl⟩ := Prod.mk.inj (Option.some.inj parsed)
    exact takes s a rest read
  · obtain ⟨-, rfl⟩ := Prod.mk.inj (Option.some.inj parsed)
    exact Nat.le_refl _

theorem Takes.collect (takes : Takes 0 p) (room : List Char) (s : Source) (found : List α) :
    (p.collect room s found).2.rest.length ≤ s.rest.length := by
  induction room generalizing s found with
  | nil => exact Nat.le_refl _
  | cons _ room ih =>
    unfold Pattern.collect
    split
    · exact Nat.le_refl _
    · next a rest read =>
      have taken := takes _ a rest read
      exact Nat.le_trans (ih rest _) (Nat.le_trans taken (length_skipBlanks_le s))

theorem Takes.many (takes : Takes 0 p) : Takes 0 p.many := by
  intro s as s' parsed
  have collected := takes.collect s.rest s []
  rwa [Option.some.inj parsed] at collected

theorem Source.length_drop_lt {s : Source} (positive : 0 < n) (long : n ≤ s.rest.length) :
    (s.drop n).rest.length < s.rest.length := by
  simp only [Source.drop, List.length_drop]
  omega

theorem takes_literal (t : String) : Takes t.toList.length (literal t) := by
  intro s a s' parsed
  obtain ⟨rest, dropped, same⟩ := Option.map_eq_some_iff.mp parsed
  obtain ⟨-, rfl⟩ := Prod.mk.inj same
  unfold Source.dropText? at dropped
  split at dropped
  · next starts =>
    obtain rfl := Option.some.inj dropped
    have shorter := (List.isPrefixOf_iff_prefix.mp starts).length_le
    simp only [Source.drop, List.length_drop]
    omega
  · cases dropped

theorem takes_characters (inClass : Char → Bool) : Takes 1 (characters inClass) := by
  intro s found s' parsed
  unfold characters scan at parsed
  dsimp only at parsed
  split at parsed
  · cases parsed
  · next some =>
    obtain ⟨taken, rfl⟩ := Prod.mk.inj (Option.some.inj parsed)
    have goes : s.rest.takeWhile inClass ≠ [] := fun none => some _ (Prod.ext none rfl)
    have prefixed := (List.takeWhile_prefix inClass (l := s.rest)).length_le
    have positive := List.length_pos_iff.mpr goes
    simp only [Source.drop, List.length_drop]
    omega

end Takes

/-! ### What the grammar takes -/

theorem takes_state : Takes 1 state := (takes_characters isStateCharacter).map _

theorem takes_symbol : Takes 1 symbol := by
  intro s x s' parsed
  change readSymbol s = some (x, s') at parsed
  unfold readSymbol at parsed
  split at parsed
  · next starts =>
    split at parsed <;> cases parsed
    exact Source.length_drop_lt (by decide) (by simp [starts])
  · next starts =>
    split at parsed <;> cases parsed
    exact Source.length_drop_lt (by decide) (by simp [starts])
  · cases parsed

theorem takes_comma : Takes 1 comma := takes_literal ","

theorem takes_nothing : Takes 1 nothing := (takes_literal "ε").orElse (takes_literal "_")

theorem takes_read : Takes 1 read := (takes_nothing.map _).orElse (takes_symbol.map _)

theorem takes_push : Takes 0 push :=
  (takes_nothing.weak.map _).orElse ((takes_symbol.weak.map _).seq takes_symbol.weak.many)

theorem takes_rule : Takes 0 rule := by
  have origin := ((takes_state.weak.map Rule.mk).seqLeft takes_comma.weak)
  have read := (origin.seq takes_read.weak).seqLeft takes_comma.weak
  have popped := (read.seq takes_read.weak).seqLeft (takes_literal "->").weak
  exact ((popped.seq takes_state.weak).seqLeft takes_comma.weak).seq takes_push

theorem takes_newline : Takes 1 newline := by
  intro s found s' parsed
  unfold newline scan at parsed
  dsimp only at parsed
  split at parsed
  · next starts =>
    cases parsed
    exact Source.length_drop_lt (by decide) (by simp [starts])
  · next starts =>
    cases parsed
    exact Source.length_drop_lt (by decide) (by simp [starts])
  · next starts =>
    cases parsed
    exact Source.length_drop_lt (by decide) (by simp [starts])
  · cases parsed

theorem takes_newlines : Takes 1 newlines :=
  ((takes_newline.map List.cons).seq takes_newline.weak.many).map _

def isNameCharacter (c : Char) : Bool := !isNewline c && c ≠ '#'

def nameOf (found : List Char) : Section := .name (String.ofList (Text.trim found))

theorem bodyOf_name : bodyOf .name = nameOf <$> named .text (characters isNameCharacter) := rfl

theorem Takes.separatedBy {p : Pattern α} (takes : Takes 0 p) : Takes 0 (p.separatedBy comma) :=
  (takes.map _).seq (takes_comma.weak.seqRight takes).many

theorem takes_body (kind : Section.Kind) : Takes 0 (bodyOf kind) := by
  have states := takes_state.weak.separatedBy
  have symbols := takes_symbol.weak.separatedBy
  cases kind with
  | name => exact (takes_characters isNameCharacter).weak.map nameOf
  | states => exact states.map _
  | input | stack => exact (symbols.optional.map _).map _
  | initial => exact takes_state.weak.map _
  | finals => exact states.optional.map _
  | accept =>
    have label (m : Acceptance) : Takes 0 (literal m.label) := (takes_literal m.label).weak
    exact (((label .finalState).map _).orElse
      (((label .emptyStack).map _).orElse ((label .either).map _))).map _
  | bottom => exact takes_symbol.weak.map _
  | rules => exact (takes_newlines.weak.seqRight takes_rule).many.map _

theorem takes_anySection : Takes 1 anySection := by
  have declared (kind : Section.Kind) : Takes 1 (declaration kind (bodyOf kind)) := by
    refine ((takes_literal (kind.keyword ++ ":")).seqRight (takes_body kind)).le ?_
    cases kind <;> decide
  have takes (last : Section.Kind) (kinds : List Section.Kind) :
      Takes 1 (sectionOf last kinds) := by
    induction kinds with
    | nil => exact declared last
    | cons kind kinds ih => exact (declared kind).orElse ih
  rw [anySection_eq]
  exact takes _ _

theorem takes_sectionLine : Takes 1 (Prod.snd <$> sectionLine) := by
  have located : Takes 1 anySection.located := by
    intro s found s' parsed
    obtain ⟨⟨sec, rest⟩, read, same⟩ := Option.map_eq_some_iff.mp parsed
    obtain ⟨-, rfl⟩ := Prod.mk.inj same
    exact takes_anySection s sec rest read
  have last : Takes 0 endOfInput.lookingAt := by
    intro s found s' parsed
    obtain ⟨_, -, same⟩ := Option.map_eq_some_iff.mp parsed
    obtain ⟨-, rfl⟩ := Prod.mk.inj same
    exact Nat.le_refl _
  exact (located.seqLeft (takes_newlines.weak.orElse last)).map _

end Pushdown.Format
