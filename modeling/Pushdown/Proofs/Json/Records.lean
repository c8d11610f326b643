import Mathlib.Data.List.Forall2
import Pushdown.Json.Decoding

/-!
# Records as JSON objects

A record is read off an object by the names of its fields. Where they stand, and what stands beside
them, has no say in it, and a field that is `null` may be missing if it is an optional one.
-/

namespace Pushdown.Json

variable {α : Type} {mayMiss : List String} {fields members : List (String × Json)}

/-- An object has the fields of a record in any order and among members of other names, except for
some optional fields that are `null`. -/
def Rearranges (mayMiss : List String) (fields members : List (String × Json)) : Prop :=
  ∃ kept others, kept.Sublist fields ∧
    (∀ field ∈ fields, field ∈ kept ∨ field.1 ∈ mayMiss ∧ field.2 = .null) ∧
    (∀ other ∈ others, other.1 ∉ fields.map Prod.fst) ∧ members.Perm (kept ++ others)

theorem Rearranges.self (mayMiss : List String) (fields : List (String × Json)) :
    Rearranges mayMiss fields fields := by
  refine ⟨fields, [], .refl fields, fun _ member => Or.inl member, nofun, ?_⟩
  rw [List.append_nil]

/-- What is looked up for a field is its value, or nothing if it may be missing. -/
def Gives (mayMiss : List String) (field : String × Json) (found : Option Json) : Prop :=
  found = some field.2 ∨ field.1 ∈ mayMiss ∧ field.2 = .null ∧ found = none

theorem filter_name (distinct : (fields.map Prod.fst).Nodup) {field : String × Json}
    (member : field ∈ fields) : fields.filter (·.1 = field.1) = [field] := by
  induction fields with
  | nil => cases member
  | cons first fields ih =>
    rw [List.map_cons, List.nodup_cons] at distinct
    rcases List.mem_cons.mp member with rfl | later
    · have none : fields.filter (·.1 = field.1) = [] := by
        rw [List.filter_eq_nil_iff]
        intro other among
        rw [decide_eq_true_eq]
        exact fun same => distinct.1 (List.mem_map.mpr ⟨other, among, same⟩)
      rw [List.filter_cons, if_pos (by simp), none]
    · have apart : first.1 ≠ field.1 :=
        fun same => distinct.1 (List.mem_map.mpr ⟨field, later, same.symm⟩)
      rw [List.filter_cons, if_neg (by simpa using apart), ih distinct.2 later]

theorem Rearranges.member? (rearranges : Rearranges mayMiss fields members)
    (distinct : (fields.map Prod.fst).Nodup) {field : String × Json} (member : field ∈ fields) :
    ∃ found, Json.member? members field.1 = some found ∧ Gives mayMiss field found := by
  obtain ⟨kept, others, sublist, missing, apart, perm⟩ := rearranges
  have none : others.filter (·.1 = field.1) = [] := by
    rw [List.filter_eq_nil_iff]
    intro other among
    rw [decide_eq_true_eq]
    exact fun same => apart other among (List.mem_map.mpr ⟨field, member, same.symm⟩)
  have same : (members.filter (·.1 = field.1)).Perm (kept.filter (·.1 = field.1)) := by
    have filtered := perm.filter (·.1 = field.1)
    rwa [List.filter_append, none, List.append_nil] at filtered
  -- At most the field itself is kept under its name.
  have few := sublist.filter (·.1 = field.1)
  rw [filter_name distinct member] at few
  rcases List.sublist_singleton.mp few with gone | found
  · rw [gone] at same
    have left : field ∉ kept := by
      intro among
      have inside : field ∈ kept.filter (·.1 = field.1) := by simp [among]
      rw [gone] at inside
      cases inside
    obtain ⟨optional, null⟩ := (missing field member).resolve_left left
    exact ⟨Option.none, by rw [Json.member?, same.eq_nil], Or.inr ⟨optional, null, rfl⟩⟩
  · rw [found] at same
    exact ⟨some field.2, by rw [Json.member?, List.perm_singleton.mp same], Or.inl rfl⟩

/-- All fields of a record are looked up in an object that has them. -/
theorem Rearranges.fields? (rearranges : Rearranges mayMiss fields members)
    (distinct : (fields.map Prod.fst).Nodup) (least : Nat) :
    ∃ found, Json.fields? (fields.map Prod.fst) least (.object members) = some found ∧
      List.Forall₂ (Gives mayMiss) fields found := by
  have each : ∀ field ∈ fields, ∃ found, Json.member? members field.1 = some found ∧
      Gives mayMiss field found := fun field => rearranges.member? distinct
  -- The order of the members has no say from here on.
  clear rearranges distinct
  show ∃ found, (fields.map Prod.fst).mapM (Json.member? members) = some found ∧ _
  induction fields with
  | nil => exact ⟨[], rfl, .nil⟩
  | cons field fields ih =>
    rw [List.forall_mem_cons] at each
    obtain ⟨value, looked, gives⟩ := each.1
    obtain ⟨found, others, later⟩ := ih each.2
    refine ⟨value :: found, ?_, .cons gives later⟩
    rw [List.map_cons, List.mapM_cons, looked, others]
    rfl

/-! ### Values of fields -/

section Values

variable {name : String} {value : Json} {found : Option Json} {decode : Json → Option α}

theorem Gives.required (gives : Gives mayMiss (name, value) found) (must : name ∉ mayMiss) :
    Json.required decode found = decode value := by
  rcases gives with rfl | ⟨optional, -, -⟩
  · rfl
  · exact absurd optional must

theorem Gives.optional (gives : Gives mayMiss (name, value) found) :
    Json.optional decode found = option? decode value := by
  rcases gives with rfl | ⟨-, null, rfl⟩
  · rfl
  · obtain rfl : value = .null := null
    rfl

theorem option?_ofOption {encode : α → Json} {a : Option α}
    (reads : ∀ b ∈ a, decode (encode b) = some b) (apart : ∀ b, encode b ≠ .null) :
    option? decode (ofOption encode a) = some a := by
  cases a with
  | none => rfl
  | some b =>
    unfold option? ofOption
    split
    · next null => exact absurd null (apart b)
    · rw [reads b rfl]
      rfl

theorem list?_array {as : List α} {items : List Json}
    (reads : List.Forall₂ (fun a item => decode item = some a) as items) :
    list? decode (.array items) = some as := by
  show items.mapM decode = some as
  induction reads with
  | nil => rfl
  | cons first _ ih =>
    rw [List.mapM_cons, first, ih]
    rfl

theorem list?_ofList {encode : α → Json} (reads : ∀ a, decode (encode a) = some a) (as : List α) :
    list? decode (ofList encode as) = some as := by
  refine list?_array ?_
  induction as with
  | nil => exact .nil
  | cons a as ih => exact .cons (reads a) ih

theorem word?_natural {n : Nat} (fits : n ≤ wordMax) : word? (.natural n) = some n := if_pos fits

end Values

end Pushdown.Json
