import Pushdown.Proofs.Json.Scalars

/-!
# Texts of JSON values

A value may be written with any blanks between its parts. However they are set, the value is read
back from the text: `Written value tail text` says that a text starts with a value and that a tail
follows it.
-/

namespace Pushdown.Json

/-- Blanks may stand before a text. -/
def Spaced (text spaced : List Char) : Prop :=
  ∃ before, (∀ c ∈ before, isSpace c = true) ∧ before ++ text = spaced

/-- A value without parts, of which a number that is not a natural one is written as numbers are. -/
def IsScalar : Json → Prop
  | .array items => items = []
  | .object members => members = []
  | .numeral literal => readNumber literal = some (.numeral literal, [])
  | _ => True

/-- A text starts with the name of a member, and its value stands behind the colon. -/
def Named (name : String) (inner text : List Char) : Prop :=
  ∃ colon after, Spaced (putString name colon) text ∧ Spaced (':' :: after) colon ∧
    Spaced inner after

mutual

inductive Written : Json → List Char → List Char → Prop where
  | scalar {value : Json} {tail : List Char} : IsScalar value →
    Written value tail (putScalar value tail)
  | array {first : Json} {rest : List Json} {tail mid inner text : List Char} :
    Spaced inner text → Written first mid inner → WrittenItems rest tail mid →
    Written (.array (first :: rest)) tail ('[' :: text)
  | object {name : String} {first : Json} {rest : List (String × Json)}
    {tail mid inner text : List Char} : Named name inner text → Written first mid inner →
    WrittenMembers rest tail mid → Written (.object ((name, first) :: rest)) tail ('\x7b' :: text)

inductive WrittenItems : List Json → List Char → List Char → Prop where
  | last {tail text : List Char} : Spaced (']' :: tail) text → WrittenItems [] tail text
  | next {item : Json} {rest : List Json} {tail mid inner after text : List Char} :
    Spaced (',' :: after) text → Spaced inner after → Written item mid inner →
    WrittenItems rest tail mid → WrittenItems (item :: rest) tail text

inductive WrittenMembers : List (String × Json) → List Char → List Char → Prop where
  | last {tail text : List Char} : Spaced ('\x7d' :: tail) text → WrittenMembers [] tail text
  | next {name : String} {value : Json} {rest : List (String × Json)}
    {tail mid inner after text : List Char} :
    Spaced (',' :: after) text → Named name inner after → Written value mid inner →
    WrittenMembers rest tail mid → WrittenMembers ((name, value) :: rest) tail text

end

variable {name : String} {tail text inner spaced : List Char}

/-! ### Blanks -/

theorem Spaced.self (text : List Char) : Spaced text text := ⟨[], nofun, rfl⟩

theorem Spaced.length_le (blanks : Spaced text spaced) : text.length ≤ spaced.length := by
  obtain ⟨before, -, rfl⟩ := blanks
  rw [List.length_append]
  omega

theorem Spaced.skipSpaces_eq (blanks : Spaced text spaced)
    (solid : ∀ c ∈ text.head?, isSpace c = false) : skipSpaces spaced = text := by
  obtain ⟨before, blank, rfl⟩ := blanks
  rw [skipSpaces, List.dropWhile_append_of_pos blank]
  cases text with
  | nil => rfl
  | cons c text => rw [List.dropWhile_cons, solid c rfl]; rfl

theorem Spaced.skipSpaces_cons {c : Char} (blanks : Spaced (c :: text) spaced)
    (solid : isSpace c = false) : skipSpaces spaced = c :: text := by
  refine blanks.skipSpaces_eq ?_
  rintro _ ⟨⟩
  exact solid

theorem Spaced.endsNumber (blanks : Spaced text spaced) (ends : EndsNumber text) :
    EndsNumber spaced := by
  obtain ⟨before, blank, rfl⟩ := blanks
  cases before with
  | nil => exact ends
  | cons c before =>
    rintro _ ⟨⟩
    have space := blank c List.mem_cons_self
    simp only [isSpace, Bool.or_eq_true, decide_eq_true_eq] at space
    rcases space with ((rfl | rfl) | rfl) | rfl <;> decide

theorem Named.length_lt (named : Named name inner text) : inner.length < text.length := by
  obtain ⟨colon, after, blanks, blanks', blanks''⟩ := named
  have longer := blanks.length_le
  have longer' := blanks'.length_le
  have longer'' := blanks''.length_le
  simp only [putString, List.length_cons, List.length_append] at longer longer'
  omega

/-! ### Heads and lengths -/

theorem head_of_readNumber {literal : List Char} {found : Json × List Char}
    (read : readNumber literal = some found) :
    ∃ c more, literal = c :: more ∧ (c = '-' ∨ c.isDigit = true) := by
  cases literal with
  | nil => cases read
  | cons c more =>
    refine ⟨c, more, rfl, ?_⟩
    by_cases minus : c = '-'
    · exact Or.inl minus
    · refine Or.inr ?_
      by_contra other
      rw [Bool.not_eq_true] at other
      rw [readNumber_cons minus] at read
      simp [readParts, digits, List.span_eq_takeWhile_dropWhile, other] at read

theorem ne_of_number {c d : Char} (starts : c = '-' ∨ c.isDigit = true)
    (other : d ≠ '-' ∧ d.isDigit = false) : c ≠ d := by
  rintro rfl
  rcases starts with minus | digit
  · exact other.1 minus
  · rw [other.2] at digit
    cases digit

/-- The text of a value starts with a character that neither is a blank nor closes anything. -/
theorem Written.head {value : Json} (written : Written value tail text) :
    ∃ c more, text = c :: more ∧ isSpace c = false ∧ c ≠ ']' := by
  have number {literal : List Char} {found : Json × List Char}
      (read : readNumber literal = some found) :
      ∃ c more, literal ++ tail = c :: more ∧ isSpace c = false ∧ c ≠ ']' := by
    obtain ⟨c, more, rfl, starts⟩ := head_of_readNumber read
    refine ⟨c, more ++ tail, rfl, ?_, ne_of_number starts (by decide)⟩
    simp only [isSpace, Bool.or_eq_false_iff, decide_eq_false_iff_not]
    exact ⟨⟨⟨ne_of_number starts (by decide), ne_of_number starts (by decide)⟩,
      ne_of_number starts (by decide)⟩, ne_of_number starts (by decide)⟩
  cases written with
  | array => exact ⟨'[', _, rfl, by decide⟩
  | object => exact ⟨'\x7b', _, rfl, by decide⟩
  | scalar scalar =>
    cases value with
    | null => exact ⟨'n', _, rfl, by decide⟩
    | bool value => cases value <;> exact ⟨_, _, rfl, by decide⟩
    | natural n => exact number (readNumber_toDigits n)
    | numeral literal => exact number scalar
    | string | unpaired => exact ⟨'\x22', _, rfl, by decide⟩
    | array => exact ⟨'[', _, rfl, by decide⟩
    | object => exact ⟨'\x7b', _, rfl, by decide⟩

theorem Written.solid {value : Json} (written : Written value tail text) :
    ∀ c ∈ text.head?, isSpace c = false := by
  obtain ⟨c, more, rfl, solid, -⟩ := written.head
  rintro _ ⟨⟩
  exact solid

theorem length_putScalar {value : Json} (scalar : IsScalar value) (tail : List Char) :
    tail.length < (putScalar value tail).length := by
  have number {literal : List Char} (some : literal ≠ []) :
      tail.length < (literal ++ tail).length := by
    have positive := List.length_pos_iff.mpr some
    rw [List.length_append]
    omega
  have quoted (word : List Char) : tail.length < (word ++ '\x22' :: tail).length := by
    rw [List.length_append, List.length_cons]
    omega
  cases value with
  | null => exact number (by decide)
  | bool value => cases value <;> exact number (by decide)
  | natural n => exact number Nat.toDigits_ne_nil
  | numeral literal =>
    refine number ?_
    rintro rfl
    cases scalar
  | string text => exact quoted ('\x22' :: text.toList.flatMap escape)
  | unpaired => exact quoted ('\x22' :: '\\' :: "ud800".toList)
  | array => exact number (List.cons_ne_nil '[' [']'])
  | object => exact number (List.cons_ne_nil '\x7b' ['\x7d'])

mutual

theorem Written.length_lt {value : Json} {tail text : List Char} :
    Written value tail text → tail.length < text.length
  | .scalar scalar => length_putScalar scalar tail
  | .array blanks first rest => by
    have shorter := first.length_lt
    have shorter' := rest.length_lt
    have longer := blanks.length_le
    rw [List.length_cons]
    omega
  | .object named first rest => by
    have shorter := first.length_lt
    have shorter' := rest.length_lt
    have longer := named.length_lt
    rw [List.length_cons]
    omega

theorem WrittenItems.length_lt {items : List Json} {tail text : List Char} :
    WrittenItems items tail text → tail.length < text.length
  | .last blanks => blanks.length_le
  | .next blanks blanks' first rest => by
    have shorter := first.length_lt
    have shorter' := rest.length_lt
    have longer := blanks.length_le
    have longer' := blanks'.length_le
    rw [List.length_cons] at longer
    omega

theorem WrittenMembers.length_lt {members : List (String × Json)} {tail text : List Char} :
    WrittenMembers members tail text → tail.length < text.length
  | .last blanks => blanks.length_le
  | .next blanks named first rest => by
    have shorter := first.length_lt
    have shorter' := rest.length_lt
    have longer := blanks.length_le
    have longer' := named.length_lt
    rw [List.length_cons] at longer
    omega

end

/-! ### Reading -/

theorem readValue_number {c : Char} (starts : c = '-' ∨ c.isDigit = true) (text : List Char)
    (room : Nat) : readValue (room + 1) (c :: text) = readNumber (c :: text) := by
  have other (d : Char) (apart : d ≠ '-' ∧ d.isDigit = false) : c ≠ d := ne_of_number starts apart
  rw [readValue]
  simp only [other '\x22' (by decide), other '[' (by decide), other '\x7b' (by decide),
    other 'n' (by decide), other 't' (by decide), other 'f' (by decide), if_false]

theorem readValue_quote (room : Nat) (text : List Char) : readValue (room + 1) ('\x22' :: text) =
    (readString [] text).map fun (text, rest) => (ofString text, rest) := by
  rw [readValue, if_pos rfl]

theorem readValue_scalar {value : Json} (scalar : IsScalar value) (ends : EndsNumber tail)
    (room : Nat) : readValue (room + 1) (putScalar value tail) = some (value, tail) := by
  have number {literal : List Char} (read : readNumber literal = some (value, [])) :
      readValue (room + 1) (literal ++ tail) = some (value, tail) := by
    obtain ⟨c, more, rfl, starts⟩ := head_of_readNumber read
    rw [List.cons_append, readValue_number starts, ← List.cons_append]
    exact readNumber_append ends read
  cases value with
  | null => rfl
  | bool value => cases value <;> rfl
  | natural n => exact number (readNumber_toDigits n)
  | numeral literal => exact number scalar
  | string text => exact (readValue_quote room _).trans (congrArg _ (readString_text text tail))
  | unpaired => exact (readValue_quote room _).trans (congrArg _ (readString_half tail))
  | array items =>
    obtain rfl : items = [] := scalar
    rfl
  | object members =>
    obtain rfl : members = [] := scalar
    rfl

theorem readValue_array {c : Char} {more : List Char} (blanks : Spaced (c :: more) spaced)
    (solid : isSpace c = false) (opens : c ≠ ']') (room : Nat) :
    readValue (room + 1) ('[' :: spaced) =
      (readItems room (c :: more) []).map fun (items, rest) => (Json.array items, rest) := by
  simp [readValue, blanks.skipSpaces_cons solid, opens]

theorem readItems_next {first : Json} {mid rest : List Char} {room : Nat} (found : List Json)
    (read : readValue room (skipSpaces text) = some (first, mid))
    (more : skipSpaces mid = ',' :: rest) :
    readItems (room + 1) text found = readItems room rest (first :: found) := by
  simp only [readItems, read, more]

theorem readItems_last {first : Json} {mid : List Char} {room : Nat} (found : List Json)
    (read : readValue room (skipSpaces text) = some (first, mid))
    (closes : skipSpaces mid = ']' :: tail) :
    readItems (room + 1) text found = some ((first :: found).reverse, tail) := by
  simp only [readItems, read, closes]

theorem Named.skipSpaces_eq (named : Named name inner text) : ∃ colon after,
    skipSpaces text = '\x22' :: (name.toList.flatMap escape ++ '\x22' :: colon) ∧
      skipSpaces colon = ':' :: after ∧ Spaced inner after := by
  obtain ⟨colon, after, blanks, blanks', blanks''⟩ := named
  exact ⟨colon, after, blanks.skipSpaces_cons (by decide), blanks'.skipSpaces_cons (by decide),
    blanks''⟩

theorem Named.skipped (named : Named name inner text) : Named name inner (skipSpaces text) := by
  obtain ⟨colon, after, blanks, blanks', blanks''⟩ := named
  have quoted := blanks.skipSpaces_cons (by decide)
  exact ⟨colon, after, quoted ▸ .self _, blanks', blanks''⟩

theorem Named.length_skipped_le (_ : Named name inner text) :
    (skipSpaces text).length ≤ text.length :=
  (List.dropWhile_sublist isSpace).length_le

theorem readValue_object (named : Named name inner text) (room : Nat) :
    readValue (room + 1) ('\x7b' :: text) =
      (readMembers room (skipSpaces text) []).map fun (members, rest) =>
        (ofMembers members, rest) := by
  obtain ⟨colon, after, quoted, -⟩ := named.skipSpaces_eq
  simp [readValue, quoted]

section Members

variable {first : Json} {mid rest : List Char} {room : Nat}

theorem readMembers_next (found : List (Option String × Json)) (named : Named name inner text)
    (solid : ∀ c ∈ inner.head?, isSpace c = false)
    (read : readValue room inner = some (first, mid)) (more : skipSpaces mid = ',' :: rest) :
    readMembers (room + 1) text found = readMembers room rest ((some name, first) :: found) := by
  obtain ⟨colon, after, quoted, colons, blanks⟩ := named.skipSpaces_eq
  simp only [readMembers, quoted, readString_text, colons, blanks.skipSpaces_eq solid, read, more]

theorem readMembers_last (found : List (Option String × Json)) (named : Named name inner text)
    (solid : ∀ c ∈ inner.head?, isSpace c = false)
    (read : readValue room inner = some (first, mid)) (closes : skipSpaces mid = '\x7d' :: tail) :
    readMembers (room + 1) text found = some (((some name, first) :: found).reverse, tail) := by
  obtain ⟨colon, after, quoted, colons, blanks⟩ := named.skipSpaces_eq
  simp only [readMembers, quoted, readString_text, colons, blanks.skipSpaces_eq solid, read, closes]

end Members

def withName (member : String × Json) : Option String × Json := (some member.1, member.2)

theorem ofMembers_withName (members : List (String × Json)) :
    ofMembers (members.map withName) = .object members := by
  have named : (members.map withName).mapM
      (fun member : Option String × Json => member.1.map (·, member.2)) = some members := by
    induction members with
    | nil => rfl
    | cons member members ih =>
      rw [List.map_cons, List.mapM_cons, ih]
      rfl
  unfold ofMembers
  split
  · next found taken => rw [Option.some.inj (taken.symm.trans named)]
  · next lacking => cases lacking.symm.trans named

theorem endsNumber_of_eq {c : Char} (solid : c.isDigit = false ∧ c ≠ '.' ∧ c ≠ 'e' ∧ c ≠ 'E')
    (text : List Char) : EndsNumber (c :: text) := by
  rintro _ ⟨⟩
  exact solid

theorem WrittenItems.endsNumber {items : List Json} (written : WrittenItems items tail text) :
    EndsNumber text := by
  cases written with
  | last blanks => exact blanks.endsNumber (endsNumber_of_eq (by decide) tail)
  | next blanks => exact blanks.endsNumber (endsNumber_of_eq (by decide) _)

theorem WrittenMembers.endsNumber {members : List (String × Json)}
    (written : WrittenMembers members tail text) : EndsNumber text := by
  cases written with
  | last blanks => exact blanks.endsNumber (endsNumber_of_eq (by decide) tail)
  | next blanks => exact blanks.endsNumber (endsNumber_of_eq (by decide) _)

/-- A value is read off a text in as much room as it takes there. -/
def ReadsFrom (text : List Char) (value : Json) (tail : List Char) : Prop :=
  ∀ room, text.length ≤ room + tail.length → readValue room text = some (value, tail)

mutual

-- The three follow how a text is written. Each takes one off the room for the part that it reads,
-- and what is left to read is shorter by at least that.

theorem Written.reads {value : Json} {tail text : List Char} : Written value tail text →
    EndsNumber tail → ReadsFrom text value tail
  | .scalar scalar, ends, room, enough => by
    have longer := length_putScalar scalar tail
    obtain ⟨room, rfl⟩ : ∃ n, room = n + 1 := ⟨room - 1, by omega⟩
    exact readValue_scalar scalar ends room
  | .array blanks first rest, _, room, enough => by
    have longer := first.length_lt
    have longer' := rest.length_lt
    have longer'' := blanks.length_le
    have reads := first.reads rest.endsNumber
    rw [List.length_cons] at enough
    obtain ⟨room, rfl⟩ : ∃ n, room = n + 1 := ⟨room - 1, by omega⟩
    have items := rest.reads [] (.self _) first.solid longer reads room (by omega)
    obtain ⟨c, more, rfl, solid, opens⟩ := first.head
    rw [readValue_array blanks solid opens, items]
    rfl
  | .object named first rest, _, room, enough => by
    have longer := first.length_lt
    have longer' := rest.length_lt
    have longer'' := named.length_lt
    have longer₃ := named.length_skipped_le
    have reads := first.reads rest.endsNumber
    rw [List.length_cons] at enough
    obtain ⟨room, rfl⟩ : ∃ n, room = n + 1 := ⟨room - 1, by omega⟩
    have members := rest.reads [] named.skipped first.solid longer reads room (by omega)
    rw [readValue_object named, members]
    exact congrArg some (Prod.ext (ofMembers_withName (_ :: _)) rfl)

/-- Items are read behind the first one, which is read by itself. -/
theorem WrittenItems.reads {items : List Json} {tail mid : List Char} :
    WrittenItems items tail mid → ∀ {first : Json} (found : List Json) {inner text : List Char},
      Spaced inner text → (∀ c ∈ inner.head?, isSpace c = false) → mid.length < inner.length →
      ReadsFrom inner first mid → ∀ room, text.length ≤ room + tail.length →
        readItems room text found = some (found.reverse ++ first :: items, tail)
  | .last closes, first, found, inner, text, blanks, solid, longer, reads, room, enough => by
    have longer' := blanks.length_le
    have longer'' := closes.length_le
    rw [List.length_cons] at longer''
    obtain ⟨room, rfl⟩ : ∃ n, room = n + 1 := ⟨room - 1, by omega⟩
    have read := reads room (by omega)
    rw [← blanks.skipSpaces_eq solid] at read
    rw [readItems_last found read (closes.skipSpaces_cons (by decide)), List.reverse_cons]
  | .next comma blanks' item rest, first, found, inner, text, blanks, solid, longer, reads, room,
      enough => by
    have longer' := blanks.length_le
    have longer'' := comma.length_le
    have longer₃ := blanks'.length_le
    have longer₄ := item.length_lt
    have longer₅ := rest.length_lt
    rw [List.length_cons] at longer''
    obtain ⟨room, rfl⟩ : ∃ n, room = n + 1 := ⟨room - 1, by omega⟩
    have read := reads room (by omega)
    rw [← blanks.skipSpaces_eq solid] at read
    have others := rest.reads (first :: found) blanks' item.solid longer₄
      (item.reads rest.endsNumber) room (by omega)
    rw [readItems_next found read (comma.skipSpaces_cons (by decide)), others, List.reverse_cons,
      List.append_assoc]
    rfl

theorem WrittenMembers.reads {members : List (String × Json)} {tail mid : List Char} :
    WrittenMembers members tail mid → ∀ {name : String} {first : Json}
      (found : List (Option String × Json)) {inner text : List Char},
      Named name inner text → (∀ c ∈ inner.head?, isSpace c = false) → mid.length < inner.length →
      ReadsFrom inner first mid → ∀ room, text.length ≤ room + tail.length →
        readMembers room text found =
          some (found.reverse ++ ((name, first) :: members).map withName, tail)
  | .last closes, name, first, found, inner, text, named, solid, longer, reads, room, enough => by
    have longer' := named.length_lt
    have longer'' := closes.length_le
    rw [List.length_cons] at longer''
    obtain ⟨room, rfl⟩ : ∃ n, room = n + 1 := ⟨room - 1, by omega⟩
    have read := reads room (by omega)
    rw [readMembers_last found named solid read (closes.skipSpaces_cons (by decide)),
      List.reverse_cons]
    rfl
  | .next comma named' item rest, name, first, found, inner, text, named, solid, longer, reads,
      room, enough => by
    have longer' := named.length_lt
    have longer'' := comma.length_le
    have longer₃ := named'.length_lt
    have longer₄ := item.length_lt
    have longer₅ := rest.length_lt
    rw [List.length_cons] at longer''
    obtain ⟨room, rfl⟩ : ∃ n, room = n + 1 := ⟨room - 1, by omega⟩
    have read := reads room (by omega)
    have others := rest.reads ((some name, first) :: found) named' item.solid longer₄
      (item.reads rest.endsNumber) room (by omega)
    rw [readMembers_next found named solid read (comma.skipSpaces_cons (by decide)), others,
      List.reverse_cons, List.append_assoc]
    rfl

end

/-- Whatever blanks there are between the parts of a value and around it, it is read. -/
theorem ofText?_of_written {value : Json} {text : String} (before : Spaced inner text.toList)
    (written : Written value tail inner) (behind : Spaced [] tail) :
    ofText? text = some value := by
  have ends : EndsNumber tail := behind.endsNumber nofun
  have longer := before.length_le
  have read := written.reads ends (2 * text.toList.length + 1) (by omega)
  have rest : skipSpaces tail = [] := behind.skipSpaces_eq nofun
  unfold ofText?
  simp only [before.skipSpaces_eq written.solid, read, rest, List.isEmpty_nil, if_true]

/-! ### Writing -/

/-- Every number in a value that is not a natural one is written as numbers are. -/
inductive Readable : Json → Prop where
  | null : Readable .null
  | bool (value : Bool) : Readable (.bool value)
  | natural (n : Nat) : Readable (.natural n)
  | numeral {literal : List Char} : readNumber literal = some (.numeral literal, []) →
    Readable (.numeral literal)
  | string (text : String) : Readable (.string text)
  | array {items : List Json} : (∀ item ∈ items, Readable item) → Readable (.array items)
  | object {members : List (String × Json)} : (∀ member ∈ members, Readable member.2) →
    Readable (.object members)
  | unpaired : Readable .unpaired

theorem Readable.numeral_inv {literal : List Char} (readable : Readable (.numeral literal)) :
    readNumber literal = some (.numeral literal, []) := by
  cases readable
  assumption

theorem Readable.array_inv {items : List Json} (readable : Readable (.array items)) :
    ∀ item ∈ items, Readable item := by
  cases readable
  assumption

theorem Readable.object_inv {members : List (String × Json)}
    (readable : Readable (.object members)) : ∀ member ∈ members, Readable member.2 := by
  cases readable
  assumption

mutual

theorem written_put : (value : Json) → Readable value → (tail : List Char) →
    Written value tail (put value tail)
  | .null, _, _ => .scalar trivial
  | .bool _, _, _ => .scalar trivial
  | .natural _, _, _ => .scalar trivial
  | .numeral _, readable, _ => .scalar readable.numeral_inv
  | .string _, _, _ => .scalar trivial
  | .unpaired, _, _ => .scalar trivial
  | .array [], _, _ => .scalar rfl
  | .array (first :: rest), readable, tail =>
    have items := List.forall_mem_cons.mp readable.array_inv
    .array (.self _) (written_put first items.1 _) (written_putItems rest items.2 tail)
  | .object [], _, _ => .scalar rfl
  | .object ((_, first) :: rest), readable, tail =>
    have members := List.forall_mem_cons.mp readable.object_inv
    .object ⟨_, _, .self _, .self _, .self _⟩ (written_put first members.1 _)
      (written_putMembers rest members.2 tail)

theorem written_putItems : (items : List Json) → (∀ item ∈ items, Readable item) →
    (tail : List Char) → WrittenItems items tail (putItems items tail)
  | [], _, _ => .last (.self _)
  | item :: rest, readable, tail =>
    have items := List.forall_mem_cons.mp readable
    .next (.self _) (.self _) (written_put item items.1 _) (written_putItems rest items.2 tail)

theorem written_putMembers : (members : List (String × Json)) →
    (∀ member ∈ members, Readable member.2) → (tail : List Char) →
    WrittenMembers members tail (putMembers members tail)
  | [], _, _ => .last (.self _)
  | (_, value) :: rest, readable, tail =>
    have members := List.forall_mem_cons.mp readable
    .next (.self _) ⟨_, _, .self _, .self _, .self _⟩ (written_put value members.1 _)
      (written_putMembers rest members.2 tail)

end

theorem spaced_putLine (level : Nat) (text : List Char) : Spaced text (putLine level text) := by
  refine ⟨'\n' :: List.replicate (2 * level) ' ', ?_, rfl⟩
  intro c member
  rcases List.mem_cons.mp member with rfl | blank
  · rfl
  · rw [List.eq_of_mem_replicate blank]
    rfl

theorem spaced_blank (text : List Char) : Spaced text (' ' :: text) :=
  ⟨[' '], List.forall_mem_singleton.mpr rfl, rfl⟩

mutual

theorem written_putPretty : (value : Json) → Readable value → (level : Nat) →
    (tail : List Char) → Written value tail (putPretty level value tail)
  | .null, _, _, _ => .scalar trivial
  | .bool _, _, _, _ => .scalar trivial
  | .natural _, _, _, _ => .scalar trivial
  | .numeral _, readable, _, _ => .scalar readable.numeral_inv
  | .string _, _, _, _ => .scalar trivial
  | .unpaired, _, _, _ => .scalar trivial
  | .array [], _, _, _ => .scalar rfl
  | .array (first :: rest), readable, level, tail =>
    have items := List.forall_mem_cons.mp readable.array_inv
    .array (spaced_putLine _ _) (written_putPretty first items.1 _ _)
      (written_putPrettyItems rest items.2 level tail)
  | .object [], _, _, _ => .scalar rfl
  | .object ((_, first) :: rest), readable, level, tail =>
    have members := List.forall_mem_cons.mp readable.object_inv
    .object ⟨_, _, spaced_putLine _ _, .self _, spaced_blank _⟩
      (written_putPretty first members.1 _ _) (written_putPrettyMembers rest members.2 level tail)

theorem written_putPrettyItems : (items : List Json) → (∀ item ∈ items, Readable item) →
    (level : Nat) → (tail : List Char) → WrittenItems items tail (putPrettyItems level items tail)
  | [], _, _, _ => .last (spaced_putLine _ _)
  | item :: rest, readable, level, tail =>
    have items := List.forall_mem_cons.mp readable
    .next (.self _) (spaced_putLine _ _) (written_putPretty item items.1 _ _)
      (written_putPrettyItems rest items.2 level tail)

theorem written_putPrettyMembers : (members : List (String × Json)) →
    (∀ member ∈ members, Readable member.2) → (level : Nat) → (tail : List Char) →
    WrittenMembers members tail (putPrettyMembers level members tail)
  | [], _, _, _ => .last (spaced_putLine _ _)
  | (_, value) :: rest, readable, level, tail =>
    have members := List.forall_mem_cons.mp readable
    .next (.self _) ⟨_, _, spaced_putLine _ _, .self _, spaced_blank _⟩
      (written_putPretty value members.1 _ _) (written_putPrettyMembers rest members.2 level tail)

end

theorem ofText?_render {value : Json} (readable : Readable value) :
    ofText? value.render = some value := by
  have written := written_put value readable []
  refine ofText?_of_written ?_ written (.self [])
  rw [render, String.toList_ofList]
  exact .self _

theorem ofText?_renderPretty {value : Json} (readable : Readable value) :
    ofText? value.renderPretty = some value := by
  have written := written_putPretty value readable 0 []
  refine ofText?_of_written ?_ written (.self [])
  rw [renderPretty, String.toList_ofList]
  exact .self _

end Pushdown.Json
