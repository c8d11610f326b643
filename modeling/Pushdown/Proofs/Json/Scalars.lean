import Mathlib.Data.List.Basic
import Mathlib.Data.List.TakeDrop
import Mathlib.Data.List.TakeWhile
import Pushdown.Json.Reader
import Pushdown.Json.Writer

/-!
# Strings and numbers in JSON

Every string is read back from its escapes, and every number from its digits, up to a text that
does not carry the number on.
-/

namespace Pushdown.Json

variable {text tail rest : List Char}

/-! ### Strings -/

theorem unit?_hexDigits : ∀ n < 0x20,
    unit? '0' '0' (hexDigit (n / 16)) (hexDigit (n % 16)) = some n := by
  decide

/-- What a character is written as is read as that character. -/
theorem readString_escape (c : Char) (found : List Nat) (rest : List Char) :
    readString found (escape c ++ rest) = readString (c.toNat :: found) rest := by
  by_cases quote : c = '\x22'
  · subst quote
    rfl
  by_cases backslash : c = '\\'
  · subst backslash
    rfl
  by_cases named : c = '\x08' ∨ c = '\t' ∨ c = '\n' ∨ c = '\x0c' ∨ c = '\r'
  · rcases named with rfl | rfl | rfl | rfl | rfl <;> rfl
  simp only [not_or] at named
  by_cases control : c.toNat < 0x20
  · have written : escape c =
        ['\\', 'u', '0', '0', hexDigit (c.toNat / 16), hexDigit (c.toNat % 16)] := by
      simp [escape, quote, backslash, named, control]
    rw [written]
    simp [readString, unit?_hexDigits c.toNat control]
  · have written : escape c = [c] := by simp [escape, quote, backslash, named, control]
    rw [written, List.singleton_append]
    simp [readString, quote, backslash, control]

theorem readString_flatMap_escape (text : List Char) (found : List Nat) (rest : List Char) :
    readString found (text.flatMap escape ++ rest) =
      readString (text.reverse.map Char.toNat ++ found) rest := by
  induction text generalizing found with
  | nil => rfl
  | cons c text ih =>
    rw [List.flatMap_cons, List.append_assoc, readString_escape, ih]
    simp

theorem not_surrogate (c : Char) :
    isHighSurrogate c.toNat = false ∧ isLowSurrogate c.toNat = false := by
  have valid : c.toNat < 0xd800 ∨ 0xdfff < c.toNat := c.valid.imp id And.left
  constructor
  · simp only [isHighSurrogate, Bool.and_eq_false_iff, decide_eq_false_iff_not]
    omega
  · simp only [isLowSurrogate, Bool.and_eq_false_iff, decide_eq_false_iff_not]
    omega

/-- The code points of characters are never half of a pair. -/
theorem joinPairs_map_toNat (text tail : List Char) :
    joinPairs tail (text.map Char.toNat) = some (String.ofList (text.reverse ++ tail)) := by
  induction text generalizing tail with
  | nil => rfl
  | cons c text ih =>
    obtain ⟨high, low⟩ := not_surrogate c
    have next : joinPairs tail (c.toNat :: text.map Char.toNat) =
        joinPairs (Char.ofNat c.toNat :: tail) (text.map Char.toNat) := by
      rw [joinPairs.eq_def]
      simp only [high, low, Bool.false_eq_true, if_false]
    rw [List.map_cons, next, ih, Char.ofNat_toNat, List.reverse_cons, List.append_assoc]
    rfl

theorem readString_close (found : List Nat) (tail : List Char) :
    readString found ('\x22' :: tail) = some (joinPairs [] found, tail) := rfl

theorem readString_text (text : String) (tail : List Char) :
    readString [] (text.toList.flatMap escape ++ '\x22' :: tail) = some (some text, tail) := by
  have joined := joinPairs_map_toNat text.toList.reverse []
  rw [List.reverse_reverse, List.append_nil, String.ofList_toList] at joined
  rw [readString_flatMap_escape, List.append_nil, readString_close, joined]

theorem readString_half (tail : List Char) :
    readString [] ('\\' :: "ud800".toList ++ '\x22' :: tail) = some (none, tail) := by
  have written : "ud800".toList = ['u', 'd', '8', '0', '0'] := by decide
  have half : unit? 'd' '8' '0' '0' = some 0xd800 := by decide
  have broken : joinPairs [] [0xd800] = none := by decide
  rw [written]
  simp only [List.cons_append, List.nil_append, readString, half]
  rw [readString_close, broken]

/-! ### Numbers -/

def EndsNumber (text : List Char) : Prop :=
  ∀ c ∈ text.head?, c.isDigit = false ∧ c ≠ '.' ∧ c ≠ 'e' ∧ c ≠ 'E'

theorem digits_append (ends : EndsNumber tail) (text : List Char) :
    digits (text ++ tail) = ((digits text).1, (digits text).2 ++ tail) := by
  simp only [digits, List.span_eq_takeWhile_dropWhile]
  induction text with
  | nil =>
    cases tail with
    | nil => rfl
    | cons c tail => simp [(ends c rfl).1]
  | cons c text ih => cases digit : c.isDigit <;> simp_all

variable {found rest : List Char}

theorem readFraction_append (ends : EndsNumber tail)
    (read : readFraction text = some (found, rest)) :
    readFraction (text ++ tail) = some (found, rest ++ tail) := by
  unfold readFraction at read
  split at read
  · next later =>
    rw [List.cons_append, readFraction, digits_append ends]
    rcases taken : digits later with ⟨places, after⟩
    rw [taken] at read
    cases places with
    | nil => cases read
    | cons c places =>
      obtain ⟨rfl, rfl⟩ := Prod.mk.inj (Option.some.inj read)
      rfl
  · next other =>
    obtain ⟨rfl, rfl⟩ := Prod.mk.inj (Option.some.inj read)
    unfold readFraction
    split
    · next places same =>
      cases text with
      | nil => exact absurd rfl (ends '.' (by rw [← List.nil_append tail, same]; rfl)).2.1
      | cons c text =>
        obtain ⟨rfl, -⟩ := List.cons.inj same
        exact absurd rfl (other text)
    · rfl

/-- What is read of an exponent after its mark and its sign. -/
def places (before text : List Char) : Option (List Char × List Char) :=
  match digits text with
  | ([], _) => none
  | (word, rest) => some (before ++ word, rest)

theorem places_append (ends : EndsNumber tail) {before : List Char}
    (read : places before text = some (found, rest)) :
    places before (text ++ tail) = some (found, rest ++ tail) := by
  unfold places at read ⊢
  rw [digits_append ends]
  rcases taken : digits text with ⟨word, after⟩
  rw [taken] at read
  cases word with
  | nil => cases read
  | cons c word =>
    obtain ⟨rfl, rfl⟩ := Prod.mk.inj (Option.some.inj read)
    rfl

def signOf : List Char → List Char × List Char
  | '+' :: text => (['+'], text)
  | '-' :: text => (['-'], text)
  | text => ([], text)

theorem signOf_append (some : text ≠ []) (tail : List Char) :
    signOf (text ++ tail) = ((signOf text).1, (signOf text).2 ++ tail) := by
  obtain ⟨c, text, rfl⟩ := List.exists_cons_of_ne_nil some
  by_cases plus : c = '+'
  · subst plus
    rfl
  by_cases minus : c = '-'
  · subst minus
    rfl
  simp [signOf, plus, minus]

theorem readExponent_cons (c : Char) (text : List Char) : readExponent (c :: text) =
    if c = 'e' ∨ c = 'E' then places (c :: (signOf text).1) (signOf text).2
    else some ([], c :: text) := by
  cases text with
  | nil => rfl
  | cons d text =>
    by_cases plus : d = '+'
    · subst plus
      rfl
    by_cases minus : d = '-'
    · subst minus
      rfl
    rcases taken : digits (d :: text) with ⟨_ | ⟨e, word⟩, after⟩ <;>
      simp [readExponent, signOf, places, plus, minus, taken]

theorem readExponent_append (ends : EndsNumber tail)
    (read : readExponent text = some (found, rest)) :
    readExponent (text ++ tail) = some (found, rest ++ tail) := by
  cases text with
  | nil =>
    obtain ⟨rfl, rfl⟩ := Prod.mk.inj (Option.some.inj read)
    cases tail with
    | nil => rfl
    | cons c tail =>
      obtain ⟨-, -, lower, upper⟩ := ends c rfl
      simp [readExponent, lower, upper]
  | cons c text =>
    rw [List.cons_append]
    rw [readExponent_cons] at read ⊢
    by_cases marks : c = 'e' ∨ c = 'E'
    · rw [if_pos marks] at read ⊢
      cases text with
      | nil => cases read
      | cons d text =>
        rw [signOf_append (List.cons_ne_nil d text)]
        exact places_append ends read
    · rw [if_neg marks] at read ⊢
      obtain ⟨rfl, rfl⟩ := Prod.mk.inj (Option.some.inj read)
      rfl

/-- What is read of a number after its sign. -/
def readParts (sign text : List Char) : Option (Json × List Char) := do
  let (whole, rest) := digits text
  if whole.isEmpty || (whole.head? = some '0' && whole.length > 1) then none
  let (fraction, rest) ← readFraction rest
  let (exponent, rest) ← readExponent rest
  if sign.isEmpty && fraction.isEmpty && exponent.isEmpty then
    return (.natural (decimal whole), rest)
  else return (.numeral (sign ++ whole ++ fraction ++ exponent), rest)

theorem readParts_append {value : Json} (ends : EndsNumber tail) {sign : List Char}
    (read : readParts sign text = some (value, rest)) :
    readParts sign (text ++ tail) = some (value, rest ++ tail) := by
  unfold readParts at read ⊢
  rw [digits_append ends]
  dsimp only at read ⊢
  split at read
  · cases read
  · next formed =>
    rw [if_neg formed]
    obtain ⟨⟨fraction, later⟩, places, read⟩ := Option.bind_eq_some_iff.mp read
    obtain ⟨⟨exponent, last⟩, marks, read⟩ := Option.bind_eq_some_iff.mp read
    dsimp only at read
    rw [readFraction_append ends places]
    show (readExponent (later ++ tail) >>= _) = _
    rw [readExponent_append ends marks]
    show (if _ then _ else _) = _
    split at read
    · next plain =>
      obtain ⟨rfl, rfl⟩ := Prod.mk.inj (Option.some.inj read)
      exact if_pos plain
    · next marked =>
      obtain ⟨rfl, rfl⟩ := Prod.mk.inj (Option.some.inj read)
      exact if_neg marked

theorem readNumber_cons {c : Char} (plain : c ≠ '-') (text : List Char) :
    readNumber (c :: text) = readParts [] (c :: text) := by
  unfold readNumber readParts
  split
  next sign rest same =>
  split at same
  · next minus => exact absurd (List.cons.inj minus).1 plain
  · obtain ⟨rfl, rfl⟩ := Prod.mk.inj same
    rfl

/-- A number is read off its text, whatever follows that does not carry it on. -/
theorem readNumber_append {value : Json} (ends : EndsNumber tail)
    (read : readNumber text = some (value, rest)) :
    readNumber (text ++ tail) = some (value, rest ++ tail) := by
  cases text with
  | nil => cases read
  | cons c text =>
    by_cases minus : c = '-'
    · subst minus
      exact readParts_append ends read
    · rw [readNumber_cons minus] at read
      rw [List.cons_append, readNumber_cons minus, ← List.cons_append]
      exact readParts_append ends read

/-! ### Natural numbers -/

/-- Only zero is written with a zero at its head. -/
theorem eq_zero_of_head?_toDigits {n : Nat} (zero : (Nat.toDigits 10 n).head? = some '0') :
    n = 0 := by
  induction n using Nat.strong_induction_on with
  | _ n ih =>
    rw [Nat.toDigits_eq_if (by decide)] at zero
    split at zero
    · next small =>
      have only : ∀ m < 10, m.digitChar = '0' → m = 0 := by decide
      exact only n small (Option.some.inj zero)
    · next large =>
      rw [List.head?_append_of_ne_nil _ Nat.toDigits_ne_nil] at zero
      have none := ih (n / 10) (by omega) zero
      omega

theorem digits_toDigits (n : Nat) : digits (Nat.toDigits 10 n) = (Nat.toDigits 10 n, []) := by
  have all : ∀ c ∈ Nat.toDigits 10 n, c.isDigit = true :=
    fun c member => Nat.isDigit_of_mem_toDigits (by decide) (by decide) member
  rw [digits, List.span_eq_takeWhile_dropWhile, List.takeWhile_eq_self_iff.mpr all,
    List.dropWhile_eq_nil_iff.mpr all]

theorem readNumber_toDigits (n : Nat) : readNumber (Nat.toDigits 10 n) = some (.natural n, []) := by
  have formed : ¬ ((Nat.toDigits 10 n).isEmpty ||
      ((Nat.toDigits 10 n).head? = some '0' && (Nat.toDigits 10 n).length > 1)) = true := by
    have some : (Nat.toDigits 10 n).isEmpty = false := by simp
    rw [some, Bool.false_or, Bool.and_eq_true, decide_eq_true_eq, decide_eq_true_eq]
    rintro ⟨zero, long⟩
    obtain rfl := eq_zero_of_head?_toDigits zero
    exact absurd long (by decide)
  have value : decimal (Nat.toDigits 10 n) = n := Nat.ofDigitChars_toDigits (by decide) (by decide)
  obtain ⟨c, word, starts⟩ := List.exists_cons_of_ne_nil Nat.toDigits_ne_nil
  have plain : c ≠ '-' := by
    rintro rfl
    have digit := Nat.isDigit_of_mem_toDigits (b := 10) (n := n) (c := '-') (by decide) (by decide)
      (by rw [starts]; exact List.mem_cons_self)
    exact absurd digit (by decide)
  have parts : readNumber (Nat.toDigits 10 n) = readParts [] (Nat.toDigits 10 n) := by
    rw [starts]
    exact readNumber_cons plain word
  rw [parts, readParts, digits_toDigits]
  dsimp only
  rw [if_neg formed, value]
  rfl

end Pushdown.Json
