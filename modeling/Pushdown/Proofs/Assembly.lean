import Pushdown.Proofs.Legible
import Pushdown.Proofs.Trees

/-!
# Definitions from sections

What becomes of a text that the grammar accepts depends on the kinds of its sections: a kind that is
there again is refused first, then a kind that is missing, and sections that make up a definition
are checked. A walk over the tree of the text comes to the same, and never to a fault of its own.
-/

namespace Pushdown

namespace Format

variable {text : List Char} {seen : List Section.Kind} {found : List (Span × Section)}

def kindsOf (found : List (Span × Section)) : List Section.Kind :=
  found.map fun entry => entry.2.kind

/-- The kinds that have to be there, in the order in which they are missed. -/
def required : List Section.Kind := [.name, .states, .input, .accept, .rules]

/-! ### Repeated sections -/

theorem firstRepeated_append {before after : List (Span × Section)} {span : Span} {sec : Section}
    (distinct : (kindsOf before).Nodup) (fresh : ∀ kind ∈ kindsOf before, kind ∉ seen)
    (again : sec.kind ∈ seen ∨ sec.kind ∈ kindsOf before) :
    firstRepeated seen (before ++ (span, sec) :: after) = some (span, sec.kind) := by
  induction before generalizing seen with
  | nil => rw [List.nil_append, firstRepeated, if_pos (again.resolve_right List.not_mem_nil)]
  | cons entry before ih =>
    rw [kindsOf, List.map_cons] at distinct fresh again
    obtain ⟨new, distinct⟩ := List.nodup_cons.mp distinct
    obtain ⟨unseen, fresh⟩ := List.forall_mem_cons.mp fresh
    rw [List.cons_append, firstRepeated, if_neg unseen]
    apply ih distinct
    · intro kind among known
      rcases List.mem_cons.mp known with rfl | earlier
      · exact new among
      · exact fresh kind among earlier
    · rcases again with known | here
      · exact Or.inl (List.mem_cons_of_mem _ known)
      · rcases List.mem_cons.mp here with same | later
        · exact Or.inl (same ▸ List.mem_cons_self)
        · exact Or.inr later

/-! ### Walks -/

/-- A walk over the nodes of sections finds what the sections are, or the first that is there
again. -/
theorem gather_stands {nodes : List Node} {last : Node} (part : last.part = .endOfInput)
    (each : List.Forall₂ Node.Stands nodes found) (seen : List Section.Kind) :
    gather text seen (nodes ++ [last]) =
      match firstRepeated seen found with
      | some (span, kind) => .error <| .refused <| .malformed
          { text, start := span.start, problem := .repeated kind span.stop }
      | none => .ok (found.map Prod.snd) := by
  induction each generalizing seen with
  | nil =>
    rw [List.nil_append, gather, Node.register, Node.section?, part]
    rfl
  | @cons node entry nodes found stands _ ih =>
    obtain ⟨span, sec⟩ := entry
    obtain ⟨⟨part, declares⟩, rfl⟩ := stands
    rw [List.cons_append, gather, Node.register, part, firstRepeated]
    by_cases known : sec.kind ∈ seen
    · simp only [known, if_true]
      rfl
    · simp only [known, if_false, declares]
      show (gather text (sec.kind :: seen) (nodes ++ [last]) >>= _) = _
      rw [ih]
      cases firstRepeated (sec.kind :: seen) found <;> rfl

/-! ### Missing sections -/

section Picks

variable {α : Type} {kind : Section.Kind} {form : α → Section} {hold : Section → Option α}
  {sections : List Section}

theorem Picks.require_missing (picks : Picks kind form hold)
    (missing : kind ∉ sections.map Section.kind) :
    require kind (sections.findSome? hold) = .error (.missingSection kind) := by
  rw [picks.findSome?_eq_none.mpr missing]
  rfl

theorem Picks.require_present (picks : Picks kind form hold)
    (present : kind ∈ sections.map Section.kind) :
    ∃ a, require kind (sections.findSome? hold) = .ok a := by
  obtain ⟨a, found⟩ := Option.ne_none_iff_exists'.mp
    (picks.findSome?_eq_none.not.mpr (not_not.mpr present))
  exact ⟨a, by rw [found]; rfl⟩

/-- What comes of sections of which the given kind is the first that is missing, if one is. -/
def Completes (missing : Option Section.Kind) (outcome : Except Error Definition) : Prop :=
  match missing with
  | some kind => outcome = .error (.missingSection kind)
  | none => ∃ d, outcome = .ok d

theorem Picks.require_then (picks : Picks kind form hold) {kinds : List Section.Kind}
    {next : α → Except Error Definition}
    (later : ∀ a, Completes (kinds.find? (· ∉ sections.map Section.kind)) (next a)) :
    Completes ((kind :: kinds).find? (· ∉ sections.map Section.kind))
      (require kind (sections.findSome? hold) >>= next) := by
  rw [List.find?_cons]
  by_cases present : kind ∈ sections.map Section.kind
  · obtain ⟨a, found⟩ := picks.require_present present
    simp only [present, not_true_eq_false, decide_false, found]
    exact later a
  · simp only [present, not_false_eq_true, decide_true, picks.require_missing present]
    rfl

end Picks

end Format

namespace Definition

open Format

/-- What is left to do with the sections of a text. -/
theorem ofText_of_sections {text : String} {found : List (Span × Section)}
    (small : text.utf8ByteSize ≤ sizeLimit)
    (read : sectionsOf (Text.trim text.toList) = .ok found) :
    ofText text = (checkRepetition (Text.trim text.toList) found).mapError Error.malformed >>=
      fun _ => ofSections (found.map Prod.snd) >>= fun d => d.check >>= fun _ => .ok d := by
  unfold ofText
  rw [if_neg (Nat.not_lt.mpr small)]
  dsimp only
  rw [read]
  rfl

/-- A definition is read by way of the tree as it is read directly. -/
theorem ofTree_eq (text : String) : ofTree text = (ofText text).mapError .refused := by
  by_cases small : text.utf8ByteSize ≤ sizeLimit
  · unfold ofTree
    rw [if_neg (Nat.not_lt.mpr small)]
    dsimp only
    rcases treeOf_cases (Text.trim text.toList) with
      ⟨root, found, tree, sections, document⟩ | ⟨diagnostic, tree, sections⟩
    · obtain ⟨nodes, last, children, part, each⟩ := document.children
      rw [ofText_of_sections small sections, tree]
      show ofRoots _ [root] = _
      rw [ofRoots, children, gather_stands part each, mapError_bind, checkRepetition]
      cases Format.firstRepeated [] found with
      | some again => rfl
      | none =>
        -- With no kind twice, both put the sections together and check the result.
        show ((ofSections (found.map Prod.snd)).mapError Fault.refused >>= fun d =>
            d.check.mapError Fault.refused >>= fun _ => .ok d) =
          (ofSections (found.map Prod.snd) >>= fun d =>
            d.check >>= fun _ => .ok d : Except Error Definition).mapError Fault.refused
        simp only [mapError_bind]
        rfl
    · unfold ofText
      rw [if_neg (Nat.not_lt.mpr small)]
      dsimp only
      rw [tree, sections]
      rfl
  · unfold ofTree ofText
    rw [if_pos (Nat.lt_of_not_le small), if_pos (Nat.lt_of_not_le small)]
    rfl

variable {sections : List Section} {d : Definition}

theorem ofSections_completes (sections : List Section) :
    Completes (required.find? (· ∉ sections.map Section.kind)) (ofSections sections) := by
  obtain ⟨name, states, input, -, -, -, accept, -, rules⟩ := picks
  unfold ofSections
  exact name.require_then fun _ => states.require_then fun _ => input.require_then fun _ =>
    accept.require_then fun _ => rules.require_then fun _ => ⟨_, rfl⟩

/-- Sections of different kinds describe the definition that they are put together to. -/
theorem describedBy_of_ofSections (distinct : (sections.map Section.kind).Nodup)
    (some : ∀ names, .states names ∈ sections → names ≠ []) (built : ofSections sections = .ok d) :
    d.DescribedBy sections := by
  obtain ⟨name, states, input, stack, initial, finals, accept, bottom, rules⟩ := picks
  unfold ofSections at built
  obtain ⟨_, hasName, built⟩ := bind_eq_ok.mp built
  obtain ⟨declared, hasStates, built⟩ := bind_eq_ok.mp built
  obtain ⟨_, hasInput, built⟩ := bind_eq_ok.mp built
  obtain ⟨_, hasAccept, built⟩ := bind_eq_ok.mp built
  obtain ⟨_, hasRules, built⟩ := bind_eq_ok.mp built
  obtain rfl := Except.ok.inj built
  rw [require_eq_ok] at hasName hasStates hasInput hasAccept hasRules
  generalize hasInitial : sections.findSome? Section.initial? = first
  generalize hasStack : sections.findSome? Section.stack? = symbols
  generalize hasFinals : sections.findSome? Section.finals? = names
  generalize hasBottom : sections.findSome? Section.bottom? = last
  refine ⟨first, symbols, names, ?_, ?_, ?_, ?_⟩
  · cases first with
    | none =>
      obtain ⟨q, others, rfl⟩ :=
        List.exists_cons_of_ne_nil (some declared ((states.mem_iff distinct).mpr hasStates))
      exact Or.inr ⟨rfl, rfl⟩
    | some q => exact Or.inl rfl
  · cases symbols with
    | none => exact Or.inr ⟨rfl, rfl⟩
    | some symbols => exact Or.inl rfl
  · cases names with
    | none => exact Or.inr ⟨rfl, rfl⟩
    | some names => exact Or.inl rfl
  · rw [List.perm_ext_iff_of_nodup (List.Nodup.of_map _ distinct)
      (List.Nodup.of_map _ distinct_sections)]
    intro sec
    cases sec <;>
      simp [Definition.sections, name.mem_iff distinct, states.mem_iff distinct,
        input.mem_iff distinct, stack.mem_iff distinct, initial.mem_iff distinct,
        finals.mem_iff distinct, accept.mem_iff distinct, bottom.mem_iff distinct,
        rules.mem_iff distinct, hasName, hasStates, hasInput, hasAccept, hasRules, hasInitial,
        hasStack, hasFinals, hasBottom, eq_comm]

/-! ### The outcome -/

theorem yields_declared (kind : Section.Kind) :
    Yields (bodyOf kind) fun sec => ∀ names, sec = .states names → names ≠ [] := by
  cases kind with
  | states =>
    have first : Yields (List.cons <$> state) fun f => ∃ q, f = List.cons q :=
      (yields_anything state).map fun q _ => ⟨q, rfl⟩
    have list : Yields Format.states (· ≠ []) := by
      refine first.seq (yields_anything _) ?_
      rintro _ others ⟨q, rfl⟩ -
      exact List.cons_ne_nil q others
    refine list.map ?_
    rintro names some _ ⟨⟩
    exact some
  | name | input | stack | initial | finals | accept | bottom | rules =>
    exact (yields_anything _).map fun _ _ _ => nofun

structure Settles (text : List Char) (found : List (Span × Section))
    (outcome : Except Error Definition) : Prop where
  repeated : ∀ before span sec after, found = before ++ (span, sec) :: after →
    (kindsOf before).Nodup → sec.kind ∈ kindsOf before →
    outcome = .error (.malformed ⟨text, span.start, .repeated sec.kind span.stop⟩) ∧
      (Problem.repeated sec.kind span.stop).message =
        s!"Duplicate \"{sec.kind.keyword}:\" declaration"
  missing : ∀ kind, (kindsOf found).Nodup → required.find? (· ∉ kindsOf found) = some kind →
    outcome = .error (.missingSection kind) ∧
      (Error.missingSection kind).message =
        s!"Definition validation error: Missing '{kind.keyword}' section"
  complete : (kindsOf found).Nodup → required.find? (· ∉ kindsOf found) = none →
    ∃ d : Definition, d.DescribedBy (found.map Prod.snd) ∧ outcome = d.check.map fun _ => d

theorem ofText_of_distinct {text : String} {found : List (Span × Section)}
    (small : text.utf8ByteSize ≤ sizeLimit)
    (read : sectionsOf (Text.trim text.toList) = .ok found) (distinct : (kindsOf found).Nodup) :
    ofText text =
      ofSections (found.map Prod.snd) >>= fun d => d.check >>= fun _ => .ok d := by
  have single : Format.firstRepeated [] found = none :=
    Format.firstRepeated_eq_none.mpr ⟨distinct, fun _ _ => List.not_mem_nil⟩
  rw [ofText_of_sections small read, checkRepetition, single]
  rfl

theorem settles_ofText {text : String} {found : List (Span × Section)}
    (small : text.utf8ByteSize ≤ sizeLimit)
    (read : sectionsOf (Text.trim text.toList) = .ok found) :
    Settles (Text.trim text.toList) found (ofText text) := by
  have kinds : (found.map Prod.snd).map Section.kind = kindsOf found := List.map_map
  have completes := ofSections_completes (found.map Prod.snd)
  rw [kinds] at completes
  constructor
  · rintro before span sec after rfl distinct again
    have first : Format.firstRepeated [] (before ++ (span, sec) :: after) = some (span, sec.kind) :=
      firstRepeated_append distinct (fun _ _ => List.not_mem_nil) (Or.inr again)
    rw [ofText_of_sections small read, checkRepetition, first]
    exact ⟨rfl, rfl⟩
  · intro kind distinct missing
    rw [missing] at completes
    have refused : ofSections (found.map Prod.snd) = .error (.missingSection kind) := completes
    rw [ofText_of_distinct small read distinct, refused]
    exact ⟨rfl, rfl⟩
  · intro distinct complete
    rw [complete] at completes
    obtain ⟨d, built⟩ := completes
    have declared : ∀ names, .states names ∈ found.map Prod.snd → names ≠ [] := by
      intro names member
      obtain ⟨entry, among, same⟩ := List.mem_map.mp member
      exact forall_of_sectionsOf yields_declared read entry among names same
    refine ⟨d, describedBy_of_ofSections (kinds ▸ distinct) declared built, ?_⟩
    rw [ofText_of_distinct small read distinct, built]
    show (d.check >>= fun _ => .ok d) = _
    cases d.check <;> rfl

/-- The outcome for a text that is not too large and that the grammar accepts, once white space is
trimmed off it, is settled by its sections. The first that is of the kind of one before it is
refused; if there is none, the first kind is missed that has to be there and is not; otherwise the
outcome is the definition that the sections describe, if it passes its check, and the error of the
check if it does not. Where no kind is there twice, the order of the sections has no say in it. The
tree of a text is walked to the same outcome, and never to a fault that only a tree could have that
the grammar does not make. -/
theorem ofText_settled_by_sections :
    (∀ text : String, ofTree text = (ofText text).mapError .refused ∧
      ∀ fault, ofTree text = .error fault → ∃ cause, fault = .refused cause) ∧
    ∀ (text : String) (found : List (Span × Section)), text.utf8ByteSize ≤ 65536 →
      sectionsOf (Text.trim text.toList) = .ok found →
      (∃ root, treeOf (Text.trim text.toList) = .ok [root] ∧ Document root found) ∧
      Settles (Text.trim text.toList) found (ofText text) ∧
      ∀ (other : String) (found' : List (Span × Section)), other.utf8ByteSize ≤ 65536 →
        sectionsOf (Text.trim other.toList) = .ok found' → (kindsOf found).Nodup →
        (found.map Prod.snd).Perm (found'.map Prod.snd) → ofText other = ofText text := by
  refine ⟨?_, ?_⟩
  · intro text
    refine ⟨ofTree_eq text, ?_⟩
    intro fault failed
    rw [ofTree_eq] at failed
    cases outcome : ofText text with
    | ok d =>
      rw [outcome] at failed
      cases failed
    | error cause =>
      rw [outcome] at failed
      exact ⟨cause, (Except.error.inj failed).symm⟩
  · intro text found small read
    refine ⟨?_, settles_ofText small read, ?_⟩
    · rcases treeOf_cases (Text.trim text.toList) with
        ⟨root, found', tree, sections, document⟩ | ⟨diagnostic, -, sections⟩
      · obtain rfl := Except.ok.inj (sections.symm.trans read)
        exact ⟨root, tree, document⟩
      · rw [read] at sections
        cases sections
    · intro other found' small' read' distinct perm
      have kinds (found : List (Span × Section)) :
          (found.map Prod.snd).map Section.kind = kindsOf found := List.map_map
      have distinct' : (kindsOf found').Nodup := by
        rw [← kinds, ← (perm.map Section.kind).nodup_iff, kinds]
        exact distinct
      rw [ofText_of_distinct small' read' distinct', ofText_of_distinct small read distinct,
        ofSections_perm perm (kinds found ▸ distinct)]

/-- A name that is there twice, a text without an alphabet, and five sections in two orders. -/
theorem ofText_settled_by_sections_orders :
    let twice := "name: A\nname: B"
    let short := "states: p\nname: A"
    let forward := "name: A\nstates: p\ninput: a\naccept: either\nrules:"
    let mixed := "accept: either\nrules:\nname: A\ninput: a\nstates: p"
    ofText twice = .error (.malformed ⟨twice.toList, 8, .repeated .name 15⟩) ∧
    ofText short = .error (.missingSection .input) ∧
    (∃ d : Definition,
      d.DescribedBy [.name "A", .states ["p"], .input ['a'], .accept .either, .rules []] ∧
        ofText forward = d.check.map fun _ => d) ∧
    ofText mixed = ofText forward ∧
    ∃ root, treeOf forward.toList = .ok [root] ∧ root.part = .program := by
  intro twice short forward mixed
  have settled := ofText_settled_by_sections.2
  have trimmed : Text.trim twice.toList = twice.toList ∧
      Text.trim forward.toList = forward.toList := by decide +kernel
  obtain ⟨-, again, -⟩ := settled twice [(⟨0, 7⟩, .name "A"), (⟨8, 15⟩, .name "B")]
    (by decide +kernel) (by decide +kernel)
  obtain ⟨-, lacking, -⟩ := settled short [(⟨0, 9⟩, .states ["p"]), (⟨10, 17⟩, .name "A")]
    (by decide +kernel) (by decide +kernel)
  obtain ⟨⟨root, tree, document⟩, whole, reordered⟩ := settled forward
    [(⟨0, 7⟩, .name "A"), (⟨8, 17⟩, .states ["p"]), (⟨18, 26⟩, .input ['a']),
      (⟨27, 41⟩, .accept .either), (⟨42, 48⟩, .rules [])] (by decide +kernel) (by decide +kernel)
  rw [trimmed.1] at again
  rw [trimmed.2] at tree
  refine ⟨?_, ?_, whole.complete (by decide) (by decide), ?_, root, tree, document.part⟩
  · exact (again.repeated [(⟨0, 7⟩, .name "A")] ⟨8, 15⟩ (.name "B") [] rfl (by decide)
      (by decide)).1
  · exact (lacking.missing .input (by decide) (by decide)).1
  · exact reordered mixed [(⟨0, 14⟩, .accept .either), (⟨15, 21⟩, .rules []), (⟨22, 29⟩, .name "A"),
      (⟨30, 38⟩, .input ['a']), (⟨39, 48⟩, .states ["p"])] (by decide +kernel) (by decide +kernel)
      (by decide) (by decide)

end Definition

end Pushdown
