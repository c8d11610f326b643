import Pushdown.Text.Case

/-!
# Lower case in searches

To find a text in an ASCII text without regard to case, it does not matter what the lower-case forms
of other letters are, so long as they are not ASCII.
-/

namespace Pushdown

namespace Text

/-- What a mapping of texts to lower case does: `image` is what comes of a character between those
before it and those behind it. Of the characters that are not ASCII, only the Kelvin sign is mapped
to ASCII characters alone. -/
structure LowerCase (image : List Char → Char → List Char → List Char) : Prop where
  ascii : ∀ before c after, c.toNat < 0x80 → image before c after = [c.toLower]
  kelvin : ∀ before after, image before '\u212a' after = ['k']
  other : ∀ before c after, 0x80 ≤ c.toNat → c ≠ '\u212a' →
    ∃ x ∈ image before c after, 0x80 ≤ x.toNat

/-- The images of the characters of a text one after another; `before` is what stands in front. -/
def mapped (image : List Char → Char → List Char → List Char) (before : List Char) :
    List Char → List Char
  | [] => []
  | c :: after => image before c after ++ mapped image (before ++ [c]) after

def IsAscii (text : List Char) : Prop := ∀ c ∈ text, c.toNat < 0x80

variable {image : List Char → Char → List Char → List Char} {c : Char} {text part whole : List Char}

theorem isAscii_of_all (ascii : text.all (fun c => decide (c.toNat < 0x80)) = true) :
    IsAscii text := by
  simpa [IsAscii] using ascii

theorem toLower_of_large (large : 0x80 ≤ c.toNat) : c.toLower = c := by
  unfold Char.toLower
  rw [dif_neg]
  rintro ⟨-, upper⟩
  rw [UInt32.le_iff_toNat_le] at upper
  change c.toNat ≤ 90 at upper
  omega

theorem toNat_toLower_of_ascii (ascii : c.toNat < 0x80) : c.toLower.toNat < 0x80 := by
  unfold Char.toLower
  split
  · next upper =>
    obtain ⟨-, upper⟩ := upper
    rw [UInt32.le_iff_toNat_le] at upper
    change c.toNat ≤ 90 at upper
    change (c.val + 32).toNat < 0x80
    rw [UInt32.toNat_add]
    change (c.toNat + 32) % 2 ^ 32 < 0x80
    omega
  · exact ascii

theorem ne_kelvin_of_ascii (ascii : c.toNat < 0x80) : c ≠ '\u212a' := by
  rintro rfl
  exact absurd ascii (by decide)

theorem lowerCase_lowerChar : LowerCase fun _ c _ => [lowerChar c] where
  ascii _ c _ ascii := by rw [lowerChar, if_neg (ne_kelvin_of_ascii ascii)]
  kelvin _ _ := rfl
  other _ c _ large distinct :=
    ⟨lowerChar c, List.mem_singleton_self _,
      by rwa [lowerChar, if_neg distinct, toLower_of_large large]⟩

theorem mapped_lowerChar (before text : List Char) :
    mapped (fun _ c _ => [lowerChar c]) before text = lower text := by
  induction text generalizing before with
  | nil => rfl
  | cons c text ih => rw [mapped, ih, lower, lower, List.map_cons, List.singleton_append]

/-- ASCII characters and Kelvin signs have the same images under every such mapping. -/
theorem LowerCase.mapped_eq (lowers : LowerCase image) (before : List Char)
    (plain : ∀ c ∈ text, c.toNat < 0x80 ∨ c = '\u212a') :
    mapped image before text = lower text := by
  induction text generalizing before with
  | nil => rfl
  | cons c text ih =>
    obtain ⟨first, others⟩ := List.forall_mem_cons.mp plain
    rw [mapped, ih _ others, lower, lower, List.map_cons]
    rcases first with ascii | rfl
    · rw [lowers.ascii _ c _ ascii, lowerChar, if_neg (ne_kelvin_of_ascii ascii)]
      rfl
    · rw [lowers.kelvin]
      rfl

theorem LowerCase.exists_large (lowers : LowerCase image) (before : List Char)
    (member : c ∈ text) (large : 0x80 ≤ c.toNat) (distinct : c ≠ '\u212a') :
    ∃ x ∈ mapped image before text, 0x80 ≤ x.toNat := by
  induction text generalizing before with
  | nil => cases member
  | cons d text ih =>
    rw [mapped]
    rcases List.mem_cons.mp member with rfl | later
    · obtain ⟨x, inside, wide⟩ := lowers.other before c text large distinct
      exact ⟨x, List.mem_append_left _ inside, wide⟩
    · obtain ⟨x, inside, wide⟩ := ih (before ++ [d]) later
      exact ⟨x, List.mem_append_right _ inside, wide⟩

theorem LowerCase.mapped_eq_of_ascii (lowers : LowerCase image) (ascii : IsAscii text) :
    mapped image [] text = lower text :=
  lowers.mapped_eq [] fun c member => Or.inl (ascii c member)

theorem IsAscii.lower (ascii : IsAscii text) : IsAscii (lower text) := by
  intro x member
  obtain ⟨c, inside, rfl⟩ := List.mem_map.mp member
  have small := ascii c inside
  rw [lowerChar, if_neg (ne_kelvin_of_ascii small)]
  exact toNat_toLower_of_ascii small

theorem occursIn_iff : occursIn part whole = true ↔ part <:+: whole := by
  induction whole with
  | nil => simp [occursIn]
  | cons c rest ih => simp [occursIn, ih, List.infix_cons_iff]

/-- To find a text in an ASCII text, all mappings to lower case are alike. -/
theorem LowerCase.infix_iff (lowers : LowerCase image) (ascii : IsAscii whole) :
    mapped image [] part <:+: mapped image [] whole ↔ lower part <:+: lower whole := by
  rw [lowers.mapped_eq_of_ascii ascii]
  by_cases plain : ∀ c ∈ part, c.toNat < 0x80 ∨ c = '\u212a'
  · rw [lowers.mapped_eq [] plain]
  · -- A character stays that is not ASCII, which does not occur in an ASCII text.
    simp only [Classical.not_forall, not_or, Nat.not_lt] at plain
    obtain ⟨c, member, large, distinct⟩ := plain
    have absent {found : List Char} (some : ∃ x ∈ found, 0x80 ≤ x.toNat) :
        ¬ found <:+: lower whole := by
      obtain ⟨x, inside, wide⟩ := some
      intro occurs
      have small := ascii.lower x (occurs.subset inside)
      omega
    have image := lowers.exists_large [] member large distinct
    have lowered := lowerCase_lowerChar.exists_large [] member large distinct
    rw [mapped_lowerChar] at lowered
    exact iff_of_false (absent image) (absent lowered)

end Text

end Pushdown
