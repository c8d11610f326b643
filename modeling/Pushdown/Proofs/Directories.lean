import Mathlib.Data.List.Sort
import Mathlib.Data.List.TakeWhile
import Pushdown.FileSystem.Definitions
import Pushdown.Proofs.Listings

/-!
# Definitions in directories

A name in a directory is looked up by way of the directory's own path, so unless that path becomes
too long by it, it leads to the entry of that name. What is loaded from a directory is told entry by
entry from there: in the order of the names, whatever the order in which they are listed.
-/

namespace Pushdown

/-! ### Extensions -/

/-- A name ends in a dot and an extension without a dot, with something in front of them. -/
def HasExtension (name extension : String) : Prop :=
  ∃ stem, stem ≠ "" ∧ name = stem ++ "." ++ extension ∧ '.' ∉ extension.toList

namespace FileSystem

theorem extension?_eq_some {name extension : String} :
    extension? name = some extension ↔ HasExtension name extension := by
  constructor
  · intro found
    have split : name.toList.reverse = name.toList.reverse.takeWhile (· ≠ '.') ++
      name.toList.reverse.dropWhile (· ≠ '.') := List.takeWhile_append_dropWhile.symm
    have dotless : ∀ c ∈ name.toList.reverse.takeWhile (· ≠ '.'), c ≠ '.' := by
      intro c member
      simpa using List.mem_takeWhile_imp member
    have first := List.head?_dropWhile_not (· ≠ '.') name.toList.reverse
    rw [extension?] at found
    generalize name.toList.reverse.takeWhile (· ≠ '.') = behind at *
    generalize name.toList.reverse.dropWhile (· ≠ '.') = front at *
    match front with
    | [] | [_] => cases found
    | dot :: last :: stem =>
      obtain rfl : dot = '.' := by simpa using first
      obtain rfl : String.ofList behind.reverse = extension := by simpa using found
      refine ⟨String.ofList (last :: stem).reverse, by simp, ?_, ?_⟩
      · rw [← String.toList_inj, ← List.reverse_inj, split]
        simp
      · simpa using fun member => dotless '.' member rfl
  · rintro ⟨stem, nonempty, rfl, dotless⟩
    have behind : ∀ c ∈ extension.toList.reverse, decide (c ≠ '.') = true := by
      intro c member
      have : c ≠ '.' := fun same => dotless (same ▸ List.mem_reverse.mp member)
      simpa
    have letters : (stem ++ "." ++ extension).toList.reverse =
        extension.toList.reverse ++ '.' :: stem.toList.reverse := by simp
    rw [extension?, letters, List.takeWhile_append_of_pos behind,
      List.dropWhile_append_of_pos behind]
    cases last : stem.toList.reverse with
    | nil => simp_all
    | cons c front => simp

instance (name extension : String) : Decidable (HasExtension name extension) :=
  decidable_of_iff _ extension?_eq_some

end FileSystem

/-! ### From a directory to its entries -/

structure FileTree.IsName (name : String) : Prop where
  nonempty : name ≠ ""
  noSlash : '/' ∉ name.toList
  noNul : '\x00' ∉ name.toList
  notHere : name ≠ "."
  notUp : name ≠ ".."
  short : name.utf8ByteSize ≤ nameLimit

/-- Entries as directories have them: a map from names. -/
structure FileTree.IsMap (entries : List (String × FileTree)) : Prop where
  distinct : (entries.map Prod.fst).Nodup
  isName : ∀ entry ∈ entries, IsName entry.1

namespace FileTree

instance (name : String) : Decidable (IsName name) :=
  decidable_of_iff (name ≠ "" ∧ '/' ∉ name.toList ∧ '\x00' ∉ name.toList ∧ name ≠ "." ∧
      name ≠ ".." ∧ name.utf8ByteSize ≤ nameLimit)
    ⟨fun ⟨h₁, h₂, h₃, h₄, h₅, h₆⟩ => ⟨h₁, h₂, h₃, h₄, h₅, h₆⟩,
      fun ⟨h₁, h₂, h₃, h₄, h₅, h₆⟩ => ⟨h₁, h₂, h₃, h₄, h₅, h₆⟩⟩

instance (entries : List (String × FileTree)) : Decidable (IsMap entries) :=
  decidable_of_iff ((entries.map Prod.fst).Nodup ∧ ∀ entry ∈ entries, IsName entry.1)
    ⟨fun ⟨distinct, isName⟩ => ⟨distinct, isName⟩, fun ⟨distinct, isName⟩ => ⟨distinct, isName⟩⟩

def descend (name : String) : FileTree → Except FileFault FileTree
  | .file _ => .error .notDirectory
  | .directory entries =>
    if name = "" ∨ name = "." then .ok (.directory entries) else entry entries name

theorem walk_concat {name : String} (notUp : name ≠ "..") (above : List FileTree) (here : FileTree)
    (names : List String) :
    walk above here (names ++ [name]) = (walk above here names).bind (descend name) := by
  induction names generalizing above here with
  | nil =>
    cases here with
    | file bytes => rfl
    | directory entries =>
      simp only [List.nil_append, walk, if_neg notUp, Except.bind, descend]
      split
      · rfl
      · cases entry entries name <;> rfl
  | cons first names ih =>
    cases here with
    | file bytes => rfl
    | directory entries =>
      simp only [List.cons_append, walk]
      split
      · exact ih above _
      · split
        · cases above <;> exact ih _ _
        · cases entry entries first with
          | ok found => exact ih _ found
          | error fault => rfl

theorem entry_eq {entries : List (String × FileTree)} (isMap : IsMap entries) {name : String}
    {tree : FileTree} (member : (name, tree) ∈ entries) : entry entries name = .ok tree := by
  have short : name.utf8ByteSize ≤ nameLimit := (isMap.isName _ member).short
  rw [entry, if_neg (Nat.not_lt.mpr short), (lookup_eq_some_iff_mem isMap.distinct).mpr member]

end FileTree

namespace FileSystem

open FileTree

theorem names_ne_nil (letters : List Char) : names letters ≠ [] := by
  cases letters with
  | nil => simp [names]
  | cons c rest =>
    rw [names]
    split
    · simp
    · split <;> simp

theorem names_append (front rest : List Char) :
    names (front ++ '/' :: rest) = names front ++ names rest := by
  induction front with
  | nil => rfl
  | cons c front ih =>
    rw [List.cons_append, names, names, ih]
    split
    · rfl
    · cases first : names front with
      | nil => exact absurd first (names_ne_nil front)
      | cons name others => rfl

theorem names_of_not_mem {letters : List Char} (noSlash : '/' ∉ letters) :
    names letters = [letters] := by
  induction letters with
  | nil => rfl
  | cons c rest ih =>
    rw [List.mem_cons, not_or] at noSlash
    rw [names, if_neg (Ne.symm noSlash.1), ih noSlash.2]

/-- The names from the root of a file system to where a path starts. -/
def origin (system : FileSystem) (path : String) : List String :=
  if path.startsWith "/" then [] else system.workingDirectory

def segments (path : String) : List String := (names path.toList).map String.ofList

theorem segments_append_slash (front rest : String) :
    segments (front ++ "/" ++ rest) = segments front ++ segments rest := by
  have letters : (front ++ "/" ++ rest).toList = front.toList ++ '/' :: rest.toList := by simp
  rw [segments, letters, names_append, List.map_append]
  rfl

theorem segments_eq {name : String} (noSlash : '/' ∉ name.toList) : segments name = [name] := by
  rw [segments, names_of_not_mem noSlash, List.map_singleton, String.ofList_toList]

theorem find_eq {system : FileSystem} {path : String} (noNul : '\x00' ∉ path.toList)
    (nonempty : path ≠ "") : system.find path =
      if pathLimit < path.utf8ByteSize then .error .nameTooLong
      else walk [] system.root (system.origin path ++ segments path) := by
  have noNul' : path.contains '\x00' = false := by simpa [String.contains_char_eq] using noNul
  have nonempty' : path.isEmpty = false := by simpa using nonempty
  rw [find, noNul', nonempty']
  rfl

theorem find_eq_ok {system : FileSystem} {path : String} {tree : FileTree}
    (found : system.find path = .ok tree) :
    '\x00' ∉ path.toList ∧ path ≠ "" ∧
      walk [] system.root (system.origin path ++ segments path) = .ok tree := by
  have noNul : '\x00' ∉ path.toList := by
    intro member
    rw [find, String.contains_char_eq, if_pos (decide_eq_true member)] at found
    cases found
  have nonempty : path ≠ "" := by
    rintro rfl
    simp [find, String.contains_char_eq] at found
  refine ⟨noNul, nonempty, ?_⟩
  rw [find_eq noNul nonempty] at found
  split at found
  · cases found
  · exact found

theorem entryPath_eq (path name : String) : entryPath path name =
    if ['/'] <:+ path.toList then path ++ name else path ++ "/" ++ name := by
  have slash : path.endsWith "/" = true ↔ ['/'] <:+ path.toList := by
    rw [String.endsWith_eq_endsWith_toSlice, String.Slice.endsWith_string_iff, String.copy_toSlice]
    rfl
  rw [entryPath, if_congr slash rfl rfl]

/-- The path of an entry goes on where the directory's path ends, with a slash between the two. -/
theorem entryPath_cases (path name : String) :
    ∃ front, (path = front ++ "/" ∨ path = front) ∧ entryPath path name = front ++ "/" ++ name := by
  rw [entryPath_eq]
  split
  · next slash =>
    obtain ⟨front, letters⟩ := slash
    have path_eq : path = String.ofList front ++ "/" := by
      rw [← String.toList_inj, ← letters]
      simp
    exact ⟨String.ofList front, Or.inl path_eq, by rw [← path_eq]⟩
  · exact ⟨path, Or.inr rfl, rfl⟩

theorem origin_eq (system : FileSystem) (path : String) : system.origin path =
    if ['/'] <+: path.toList then [] else system.workingDirectory := by
  rw [origin, if_congr String.startsWith_string_iff rfl rfl]
  rfl

theorem origin_append {path : String} (nonempty : path ≠ "") (system : FileSystem)
    (rest : String) : system.origin (path ++ rest) = system.origin path := by
  rw [origin_eq, origin_eq, String.toList_append]
  cases letters : path.toList with
  | nil => exact absurd (String.toList_eq_nil_iff.mp letters) nonempty
  | cons c others => simp

theorem origin_entryPath {path : String} (nonempty : path ≠ "") (system : FileSystem)
    (name : String) : system.origin (entryPath path name) = system.origin path := by
  rw [entryPath]
  split
  · exact origin_append nonempty system name
  · rw [String.append_assoc]
    exact origin_append nonempty system ("/" ++ name)

/-- A slash behind a path leads no further, and only where the path leads to a directory. -/
theorem walk_slash {above : List FileTree} {here : FileTree} {names : List String}
    {entries : List (String × FileTree)}
    (walked : walk above here (names ++ [""]) = .ok (.directory entries)) :
    walk above here names = .ok (.directory entries) := by
  rw [walk_concat (by decide)] at walked
  cases last : walk above here names with
  | error fault => rw [last] at walked; cases walked
  | ok tree =>
    rw [last] at walked
    cases tree with
    | file bytes => cases walked
    | directory inside => exact walked

/-- What is under a name in a directory is found by way of the directory's path, if that leaves
room for the name. -/
theorem find_entryPath {system : FileSystem} {path : String} {entries : List (String × FileTree)}
    (found : system.find path = .ok (.directory entries)) {name : String} (isName : IsName name) :
    system.find (entryPath path name) =
      if pathLimit < (entryPath path name).utf8ByteSize then .error .nameTooLong
      else entry entries name := by
  obtain ⟨noNul, nonempty, walked⟩ := find_eq_ok found
  obtain ⟨front, path_eq, entryPath_eq⟩ := entryPath_cases path name
  have here : walk [] system.root (system.origin path ++ segments front) =
      .ok (.directory entries) := by
    rcases path_eq with trailing | whole
    · have segments_eq : segments path = segments front ++ [""] := by
        rw [trailing, ← String.append_empty (s := front ++ "/"), segments_append_slash]
        rfl
      rw [segments_eq, ← List.append_assoc] at walked
      exact walk_slash walked
    · rwa [whole] at walked ⊢
  have noNul' : '\x00' ∉ (entryPath path name).toList := by
    rcases path_eq with rfl | rfl <;> simp_all [isName.noNul]
  have nonempty' : entryPath path name ≠ "" := by
    rw [entryPath_eq]
    simp
  have there : segments (entryPath path name) = segments front ++ [name] := by
    rw [entryPath_eq, segments_append_slash, segments_eq isName.noSlash]
  rw [find_eq noNul' nonempty', origin_entryPath nonempty, there, ← List.append_assoc,
    walk_concat isName.notUp, here]
  simp [Except.bind, descend, isName.nonempty, isName.notHere]

/-! ### The names of definitions -/

theorem nameBytes_injective : Function.Injective nameBytes := by
  intro a b same
  exact String.toByteArray_inj.mp (ByteArray.ext (Array.toList_inj.mp same))

section DefinitionNames

variable {system : FileSystem} {directory : String} {listed listed' : List String} {name : String}

theorem mem_definitionNames : name ∈ system.definitionNames directory listed ↔
    name ∈ listed ∧ system.isDirectory (entryPath directory name) = false ∧
      HasExtension name "pda" := by
  simp [definitionNames, isDefinitionName, extension?_eq_some]

theorem pairwise_definitionNames : (system.definitionNames directory listed).Pairwise fun a b =>
    nameBytes a ≤ nameBytes b := by
  have sorted : (system.definitionNames directory listed).Pairwise fun a b =>
      decide (nameBytes a ≤ nameBytes b) = true := by
    apply List.pairwise_mergeSort
    · intro a b c
      simpa only [decide_eq_true_eq] using List.le_trans
    · intro a b
      rw [Bool.or_eq_true, decide_eq_true_eq, decide_eq_true_eq]
      exact List.le_total (nameBytes a) (nameBytes b)
  exact sorted.imp of_decide_eq_true

theorem ascending_definitionNames (distinct : listed.Nodup) :
    (system.definitionNames directory listed).Pairwise fun a b => nameBytes a < nameBytes b := by
  have nodup : (system.definitionNames directory listed).Nodup :=
    (List.mergeSort_perm _ _).nodup_iff.mpr (distinct.filter _)
  exact pairwise_definitionNames.imp₂ (fun a b before differ =>
    Std.lt_iff_le_and_ne.mpr ⟨before, fun same => differ (nameBytes_injective same)⟩) nodup

theorem definitionNames_perm (perm : listed.Perm listed') :
    system.definitionNames directory listed = system.definitionNames directory listed' := by
  apply List.Perm.eq_of_pairwise _ pairwise_definitionNames pairwise_definitionNames
  · exact (List.mergeSort_perm _ _).trans ((perm.filter _).trans (List.mergeSort_perm _ _).symm)
  · intro a b _ _ before after
    exact nameBytes_injective (List.le_antisymm before after)

end DefinitionNames

/-! ### What is loaded from a directory -/

section Loading

variable {system system' : FileSystem} {path : String} {entries entries' : List (String × FileTree)}
  {name : String} {tree : FileTree}

theorem find_entry (found : system.find path = .ok (.directory entries)) (isMap : IsMap entries)
    (member : (name, tree) ∈ entries) :
    system.find (entryPath path name) =
      if pathLimit < (entryPath path name).utf8ByteSize then .error .nameTooLong else .ok tree := by
  rw [find_entryPath found (isMap.isName _ member), entry_eq isMap member]

theorem isDirectory_entry (found : system.find path = .ok (.directory entries))
    (isMap : IsMap entries) (member : (name, tree) ∈ entries) :
    system.isDirectory (entryPath path name) = false ↔
      ∀ inside, tree = .directory inside → pathLimit < (entryPath path name).utf8ByteSize := by
  rw [isDirectory, find_entry found isMap member]
  by_cases long : pathLimit < (entryPath path name).utf8ByteSize
  · simp [long]
  · cases tree <;> simp [long]

/-- What stands for a file among what is loaded: its path with its definition, or else an error that
wraps the file's own. -/
def Reports (system : FileSystem) (path : String) : Except Error (String × Definition) → Prop
  | .ok (path', definition) => path' = path ∧ system.loadDefinition path = .ok definition
  | .error e => e.category = .file ∧
    ∃ cause, system.loadDefinition path = .error cause ∧ e = .unloadable path cause

theorem reports_loadEntry (system : FileSystem) (directory name : String) :
    system.Reports (entryPath directory name) (system.loadEntry directory name) := by
  rw [loadEntry]
  cases loaded : system.loadDefinition (entryPath directory name) with
  | ok definition => exact ⟨rfl, loaded⟩
  | error cause => exact ⟨rfl, cause, loaded, rfl⟩

/-- Two directories under one path give the same for an entry that is in both. -/
theorem same_entry (found : system.find path = .ok (.directory entries)) (isMap : IsMap entries)
    (found' : system'.find path = .ok (.directory entries')) (isMap' : IsMap entries')
    (member : (name, tree) ∈ entries) (member' : (name, tree) ∈ entries') :
    system.isDirectory (entryPath path name) = system'.isDirectory (entryPath path name) ∧
      system.loadEntry path name = system'.loadEntry path name := by
  have same : system.find (entryPath path name) = system'.find (entryPath path name) := by
    rw [find_entry found isMap member, find_entry found' isMap' member']
  refine ⟨by rw [isDirectory, same, isDirectory], ?_⟩
  rw [loadEntry, loadDefinition, same, loadEntry, loadDefinition]

theorem loadDefinitions_eq (found : system.find path = .ok (.directory entries)) :
    system.loadDefinitions path = system.loadListed path (entries.map Prod.fst) := by
  rw [loadDefinitions, found]

/-- What is loaded is the same where every name listed leads to the same. -/
theorem loadListed_congr {listed : List String}
    (same : ∀ name ∈ listed,
      system.isDirectory (entryPath path name) = system'.isDirectory (entryPath path name) ∧
        system.loadEntry path name = system'.loadEntry path name) :
    system.loadListed path listed = system'.loadListed path listed := by
  have names : system.definitionNames path listed = system'.definitionNames path listed := by
    unfold definitionNames
    rw [List.filter_congr fun name member => by rw [(same name member).1]]
  rw [loadListed, loadListed, names]
  exact List.map_congr_left fun name member => (same name (mem_definitionNames.mp member).1).2

theorem loadListed_perm {listed listed' : List String} (perm : listed.Perm listed') :
    system.loadListed path listed = system.loadListed path listed' := by
  rw [loadListed, definitionNames_perm perm, loadListed]

theorem mem_definitionNames_iff (found : system.find path = .ok (.directory entries))
    (isMap : IsMap entries) : name ∈ system.definitionNames path (entries.map Prod.fst) ↔
      ∃ tree, (name, tree) ∈ entries ∧ HasExtension name "pda" ∧
        ∀ inside, tree = .directory inside → pathLimit < (entryPath path name).utf8ByteSize := by
  rw [mem_definitionNames, List.mem_map]
  constructor
  · rintro ⟨⟨⟨_, tree⟩, member, rfl⟩, shown, extension⟩
    exact ⟨tree, member, extension, (isDirectory_entry found isMap member).mp shown⟩
  · rintro ⟨tree, member, extension, hidden⟩
    exact ⟨⟨_, member, rfl⟩, (isDirectory_entry found isMap member).mpr hidden, extension⟩

/-- In which order a directory lists its entries makes no difference. -/
theorem loadDefinitions_perm (found : system.find path = .ok (.directory entries))
    (isMap : IsMap entries) (found' : system'.find path = .ok (.directory entries'))
    (isMap' : IsMap entries') (perm : entries'.Perm entries) :
    system'.loadDefinitions path = system.loadDefinitions path := by
  rw [loadDefinitions_eq found', loadDefinitions_eq found, loadListed_perm (perm.map Prod.fst)]
  apply loadListed_congr
  intro name listed
  obtain ⟨⟨_, tree⟩, member, rfl⟩ := List.mem_map.mp listed
  exact same_entry found' isMap' found isMap (perm.mem_iff.mpr member) member

end Loading

end FileSystem

open FileSystem FileTree

/-- From a directory are loaded the entries with the extension `pda`, less those that are
directories by what their paths show. Only a path that is too long does not show it. They are loaded
in ascending order of the bytes of their names, in whatever order the directory lists them. Each is
reported by itself, and what is reported depends on nothing but the entry. -/
theorem loadDefinitions_of_directory {system : FileSystem} {path : String}
    {entries : List (String × FileTree)} (found : system.find path = .ok (.directory entries))
    (isMap : IsMap entries) :
    let names := system.definitionNames path (entries.map Prod.fst)
    names.Pairwise (fun a b => nameBytes a < nameBytes b) ∧
    (∀ name, name ∈ names ↔ ∃ tree, (name, tree) ∈ entries ∧ HasExtension name "pda" ∧
      ∀ inside, tree = .directory inside → pathLimit < (entryPath path name).utf8ByteSize) ∧
    system.loadDefinitions path = names.map (system.loadEntry path) ∧
    (∀ name, system.Reports (entryPath path name) (system.loadEntry path name)) ∧
    (∀ listed, listed.Perm (entries.map Prod.fst) →
      system.loadListed path listed = system.loadDefinitions path) ∧
    ∀ (system' : FileSystem) (entries' : List (String × FileTree)),
      system'.find path = .ok (.directory entries') → IsMap entries' →
      (entries'.Perm entries → system'.loadDefinitions path = system.loadDefinitions path) ∧
      ∀ entry ∈ entries, entry ∈ entries' →
        (entry.1 ∈ names ↔ entry.1 ∈ system'.definitionNames path (entries'.map Prod.fst)) ∧
        system.loadEntry path entry.1 = system'.loadEntry path entry.1 := by
  intro names
  refine ⟨ascending_definitionNames isMap.distinct, fun name => mem_definitionNames_iff found isMap,
    loadDefinitions_eq found, system.reports_loadEntry path, ?_, ?_⟩
  · intro listed perm
    rw [loadDefinitions_eq found, loadListed_perm perm]
  · intro system' entries' found' isMap'
    refine ⟨loadDefinitions_perm found isMap found' isMap', ?_⟩
    rintro ⟨name, tree⟩ here there
    obtain ⟨shown, loads⟩ := same_entry found isMap found' isMap' here there
    refine ⟨?_, loads⟩
    rw [mem_definitionNames, mem_definitionNames, shown]
    apply and_congr_left
    intro _
    exact iff_of_true (List.mem_map_of_mem here) (List.mem_map_of_mem there)

namespace FileSystem

/-- A path that stays where it starts, in so many steps and one more. -/
def standing : Nat → String
  | 0 => "."
  | n + 1 => standing n ++ "/" ++ "."

theorem utf8ByteSize_standing (n : Nat) : (standing n).utf8ByteSize = 2 * n + 1 := by
  induction n with
  | zero => rfl
  | succ n ih =>
    rw [standing, String.utf8ByteSize_append, String.utf8ByteSize_append, ih]
    show 2 * n + 1 + 1 + 1 = 2 * (n + 1) + 1
    omega

theorem toList_standing (n : Nat) : ∃ front, (standing n).toList = front ++ ['.'] ∧
    (standing n).toList.head? = some '.' ∧ '\x00' ∉ (standing n).toList := by
  induction n with
  | zero => exact ⟨[], rfl, rfl, by decide⟩
  | succ n ih =>
    obtain ⟨front, letters, first, noNul⟩ := ih
    refine ⟨(standing n).toList ++ ['/'], by simp [standing], ?_, ?_⟩
    · simp [standing, first]
    · simp [standing, noNul]

theorem walk_standing (entries : List (String × FileTree)) (n : Nat) :
    walk [] (.directory entries) (segments (standing n)) = .ok (.directory entries) := by
  induction n with
  | zero => rfl
  | succ n ih =>
    have here : segments "." = ["."] := segments_eq (by decide)
    rw [standing, segments_append_slash, here, walk_concat (by decide), ih]
    rfl

theorem find_standing (entries : List (String × FileTree)) {n : Nat}
    (short : 2 * n + 1 ≤ pathLimit) :
    find ⟨.directory entries, []⟩ (standing n) = .ok (.directory entries) := by
  obtain ⟨front, letters, first, noNul⟩ := toList_standing n
  have nonempty : standing n ≠ "" := by
    rintro empty
    rw [empty] at first
    cases first
  rw [find_eq noNul nonempty, utf8ByteSize_standing, if_neg (Nat.not_lt.mpr short), origin_eq,
    ite_self, List.nil_append, walk_standing]

theorem entryPath_standing (n : Nat) (name : String) :
    entryPath (standing n) name = standing n ++ "/" ++ name := by
  obtain ⟨front, letters, -, -⟩ := toList_standing n
  rw [entryPath_eq, if_neg]
  rw [letters]
  rintro ⟨before, same⟩
  have last := congrArg List.getLast? same
  simp at last

/-- A directory with a directory and files in it, of which one is not a text. -/
def mixed : List (String × FileTree) :=
  [("b.pda", .file "name: B".toUTF8), ("c.pda", .directory []), (".pda", .file "".toUTF8),
    ("a.pda", .file ⟨#[255]⟩), ("a.pda.txt", .file "".toUTF8)]

end FileSystem

theorem loadDefinitions_of_directory_mixed :
    find ⟨.directory mixed, []⟩ "." = .ok (.directory mixed) ∧ IsMap mixed ∧
    loadDefinitions ⟨.directory mixed, []⟩ "." =
      [loadEntry ⟨.directory mixed, []⟩ "." "a.pda", loadEntry ⟨.directory mixed, []⟩ "." "b.pda"] ∧
    loadListed ⟨.directory mixed, []⟩ "." (mixed.reverse.map Prod.fst) =
      loadDefinitions ⟨.directory mixed, []⟩ "." := by
  have found : find ⟨.directory mixed, []⟩ "." = .ok (.directory mixed) :=
    find_standing mixed (n := 0) (by decide)
  have isMap : IsMap mixed := by decide
  obtain ⟨ascending, member, loaded, -, relisted, -⟩ := loadDefinitions_of_directory found isMap
  have shown : ¬ pathLimit < (entryPath "." "c.pda").utf8ByteSize := by
    rw [show entryPath "." "c.pda" = "." ++ "/" ++ "c.pda" from entryPath_standing 0 "c.pda"]
    decide
  have names : definitionNames ⟨.directory mixed, []⟩ "." (mixed.map Prod.fst) =
      ["a.pda", "b.pda"] := by
    apply ascending.eq_of_mem_iff (by decide)
    intro name
    rw [member]
    constructor
    · rintro ⟨tree, listed, extension, hidden⟩
      simp only [mixed, List.mem_cons, List.not_mem_nil, or_false, Prod.mk.injEq] at listed
      obtain ⟨rfl, -⟩ | ⟨rfl, rfl⟩ | ⟨rfl, -⟩ | ⟨rfl, -⟩ | ⟨rfl, -⟩ := listed
      · decide
      · exact absurd (hidden [] rfl) shown
      · exact absurd extension (by decide)
      · decide
      · exact absurd extension (by decide)
    · intro listed
      obtain rfl | rfl : name = "a.pda" ∨ name = "b.pda" := by simpa using listed
      · exact ⟨.file ⟨#[255]⟩, by simp [mixed], by decide, nofun⟩
      · exact ⟨.file "name: B".toUTF8, by simp [mixed], by decide, nofun⟩
  rw [names] at loaded
  exact ⟨found, isMap, loaded, relisted _ (mixed.reverse_perm.map _)⟩

/-- Where a path leaves no room for a name, a directory of that name is not skipped. -/
theorem loadDefinitions_skips_directories_refuted :
    ¬ ∀ (system : FileSystem) (path : String) (entries : List (String × FileTree)),
      system.find path = .ok (.directory entries) → IsMap entries →
      (∀ entry ∈ entries, ∃ inside, entry.2 = .directory inside) →
      system.loadDefinitions path = [] := by
  intro skips
  have found := find_standing [("d.pda", .directory [])] (n := 2046) (by decide)
  have isMap : IsMap [("d.pda", FileTree.directory [])] := by decide
  have empty := skips _ _ _ found isMap (by simp)
  have long : pathLimit < (entryPath (standing 2046) "d.pda").utf8ByteSize := by
    rw [entryPath_standing, String.utf8ByteSize_append, String.utf8ByteSize_append,
      utf8ByteSize_standing]
    decide
  have member : "d.pda" ∈ definitionNames ⟨.directory [("d.pda", .directory [])], []⟩
      (standing 2046) ["d.pda"] := by
    rw [mem_definitionNames]
    refine ⟨by simp, ?_, by decide⟩
    exact (isDirectory_entry found isMap (List.mem_singleton.mpr rfl)).mpr fun _ _ => long
  rw [loadDefinitions_eq found, loadListed, List.map_eq_nil_iff] at empty
  rw [List.map_singleton, empty] at *
  exact absurd member List.not_mem_nil

end Pushdown
