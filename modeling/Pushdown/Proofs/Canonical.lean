import Pushdown.Proofs.Legible

/-!
# Canonical texts

Every definition has a text in which nothing is left open: its sections in a fixed order, one line
for each and for each rule, all symbols between quotes and `ε` for nothing. It is one of the texts
that are laid out for the definition.
-/

namespace Pushdown

open Format

namespace Format.Canonical

def spaced (word : String) : List Char := ' ' :: word.toList

def quoted (x : Symbol) : List Char := ['\x27', x, '\x27']

def single : Option Symbol → List Char
  | none => spaced "ε"
  | some x => ' ' :: quoted x

def word : Word → List Char
  | [] => spaced "ε"
  | x :: xs => ' ' :: quoted x ++ xs.flatMap quoted

def separated {α : Type} (separator : String) (write : α → List Char) : List α → List Char
  | [] => []
  | x :: xs => write x ++ xs.flatMap fun y => separator.toList ++ write y

def rule (r : Rule) : List Char :=
  r.origin.toList ++ ",".toList ++ single r.reads ++ ",".toList ++ single r.pops ++ spaced "->" ++
    spaced r.destination ++ ",".toList ++ word r.pushes

def body : Section → List Char
  | .name text => spaced text
  | .states names | .finals names => separated "," spaced names
  | .input symbols | .stack symbols => separated "," (fun x => ' ' :: quoted x) symbols
  | .initial q => spaced q
  | .accept mode => spaced mode.label
  | .bottom x => ' ' :: quoted x
  | .rules list => list.flatMap fun r => "\n".toList ++ rule r

def declaration (s : Section) : List Char := (s.kind.keyword ++ ":").toList ++ body s

def document (sections : List Section) : List Char := separated "\n" declaration sections

/-! ### Canonical texts are laid out -/

section Laid

open Language Layout Definition

theorem flatMap_mem_prod {α : Type} {form : α → Language Char} {write : α → List Char} {as : List α}
    (writes : ∀ a ∈ as, write a ∈ form a) : as.flatMap write ∈ (as.map form).prod := by
  induction as with
  | nil => exact nil_mem_one
  | cons a as ih =>
    rw [List.forall_mem_cons] at writes
    rw [List.flatMap_cons, List.map_cons, List.prod_cons]
    exact append_mem_mul writes.1 (ih writes.2)

theorem separated_mem {α : Type} {separator : String} {ends : Language Char}
    {form : α → Language Char} {write : α → List Char} (separates : separator.toList ∈ ends)
    (writes : ∀ a, write a ∈ form a) (as : List α) :
    separated separator write as ∈ Layout.separated ends form as := by
  cases as with
  | nil => exact nil_mem_one
  | cons a as =>
    have later : ∀ b ∈ as, separator.toList ++ write b ∈ ends * form b :=
      fun b _ => append_mem_mul separates (writes b)
    exact append_mem_mul (writes a) (flatMap_mem_prod later)

theorem spaced_symbol_mem (x : Symbol) : ' ' :: quoted x ∈ Layout.symbol x :=
  ⟨[' '], List.forall_mem_singleton.mpr (Or.inl rfl), _, Or.inl rfl, rfl⟩

theorem quoted_mem (x : Symbol) : quoted x ∈ Layout.symbol x := ⟨[], nofun, _, Or.inl rfl, rfl⟩

theorem single_mem (found : Option Symbol) : single found ∈ Layout.single found := by
  cases found with
  | none => exact Or.inl (spaced_mem "ε")
  | some x => exact spaced_symbol_mem x

theorem word_mem (w : Word) : word w ∈ Layout.word w := by
  cases w with
  | nil => exact Or.inl (spaced_mem "ε")
  | cons x w =>
    exact append_mem_mul (spaced_symbol_mem x) (flatMap_mem_prod fun y _ => quoted_mem y)

theorem rule_mem (r : Rule) : rule r ∈ Layout.rule r := by
  have comma : ",".toList ∈ token "," := Definition.word_mem ","
  have origin := append_mem_mul (Definition.word_mem r.origin) comma
  have reads := append_mem_mul origin (single_mem r.reads)
  have pops := append_mem_mul (append_mem_mul reads comma) (single_mem r.pops)
  have enters := append_mem_mul (append_mem_mul pops (spaced_mem "->")) (spaced_mem r.destination)
  exact append_mem_mul (append_mem_mul enters comma) (word_mem r.pushes)

theorem lineFeed_mem : "\n".toList ∈ lineEnds := by
  have bare : [] ∈ lineRest := ⟨[], nofun, [], Or.inl rfl, rfl⟩
  have breaks : "\n".toList ∈ lineBreak := Or.inl rfl
  exact append_mem_mul (append_mem_mul bare breaks) (nil_mem_kstar _)

theorem body_mem (sec : Section) : body sec ∈ Layout.body sec := by
  have comma : ",".toList ∈ token "," := Definition.word_mem ","
  cases sec with
  | name text => exact spaced_mem text
  | states names | finals names => exact separated_mem comma spaced_mem names
  | input list | stack list => exact separated_mem comma spaced_symbol_mem list
  | initial q => exact spaced_mem q
  | accept m => exact spaced_mem m.label
  | bottom x => exact spaced_symbol_mem x
  | rules list => exact flatMap_mem_prod fun r _ => append_mem_mul lineFeed_mem (rule_mem r)

theorem document_mem (sections : List Section) : document sections ∈ Layout.document sections := by
  have lines (s : Section) : declaration s ∈ Layout.declaration s :=
    append_mem_mul (Definition.word_mem _) (body_mem s)
  have written : document sections ∈ Layout.separated lineEnds Layout.declaration sections :=
    separated_mem lineFeed_mem lines sections
  have bare : [] ∈ lineRest := ⟨[], nofun, [], Or.inl rfl, rfl⟩
  have noLines : [] ∈ emptyLines := nil_mem_kstar _
  have whole := append_mem_mul (append_mem_mul noLines written) (append_mem_mul noLines bare)
  rwa [List.nil_append, List.nil_append, List.append_nil] at whole

end Laid

end Format.Canonical

namespace Definition

variable {d : Definition}

def canonicalSections (d : Definition) : List Section :=
  [.name d.name, .states d.states, .input d.inputAlphabet, .stack d.stackAlphabet,
    .initial d.initialState, .finals d.finalStates, .accept d.acceptance] ++
    (d.bottom.map Section.bottom).toList ++ [.rules d.rules]

def canonicalText (d : Definition) : String :=
  String.ofList (Canonical.document d.canonicalSections)

theorem describedBy_canonicalSections (d : Definition) : d.DescribedBy d.canonicalSections := by
  refine ⟨some d.initialState, some d.stackAlphabet, some d.finalStates, Or.inl rfl, Or.inl rfl,
    Or.inl rfl, ?_⟩
  rw [List.perm_iff_count]
  intro sec
  simp only [canonicalSections, sections, Option.map_some, Option.toList_some, List.count_append,
    List.count_cons, List.count_nil]
  omega

theorem ofText_canonicalText (wellFormed : d.WellFormed) (writable : d.Writable)
    (small : d.canonicalText.utf8ByteSize ≤ sizeLimit) : ofText d.canonicalText = .ok d := by
  have described := describedBy_canonicalSections d
  have written : d.canonicalText.toList ∈ Layout.document d.canonicalSections := by
    rw [canonicalText, String.toList_ofList]
    exact Canonical.document_mem d.canonicalSections
  have some : d.canonicalSections ≠ [] := List.cons_ne_nil _ _
  obtain ⟨found, read, sections_eq⟩ :=
    sectionsOf_trim some (described.writable writable wellFormed) written
  have distinct : (found.map fun entry => entry.2.kind).Nodup := by
    have kinds := described.distinct
    rwa [← sections_eq, List.map_map] at kinds
  have single : checkRepetition (Text.trim d.canonicalText.toList) found = .ok () := by
    unfold checkRepetition
    rw [Format.firstRepeated_eq_none.mpr ⟨distinct, fun _ _ => List.not_mem_nil⟩]
  refine ofText_eq_ok.mpr ⟨small, found, read, single, ?_, check_eq_ok.mpr wellFormed⟩
  rw [sections_eq, described.ofSections_eq]

/-- Whatever is accepted is legible, and its canonical text is read as the same definition where it
has a name and the text is not too large. -/
theorem ofText_legible {text : String} (read : ofText text = .ok d) :
    text.utf8ByteSize ≤ 65536 ∧ d.Legible ∧
      (d.name ≠ "" → d.canonicalText.utf8ByteSize ≤ 65536 → ofText d.canonicalText = .ok d) := by
  have legible : d.Legible := .of_ofText read
  obtain ⟨small, -⟩ := ofText_eq_ok.mp read
  refine ⟨small, legible, ?_⟩
  intro named fits
  exact ofText_canonicalText legible.wellFormed (legible.writable named) fits

/-- It pushes two `_` for each `a`. -/
def pairs : Definition where
  name := "Pairs"
  states := ["p"]
  inputAlphabet := ['a']
  stackAlphabet := ['_']
  initialState := "p"
  finalStates := []
  acceptance := .either
  bottom := none
  rules := [⟨"p", some 'a', none, "p", ['_', '_']⟩]

theorem ofText_legible_pairs :
    let text := "rules: # one\n\tp,a,_ -> p,'_''_'\n\nstates:p\ninput: a\nstack: '_'\n" ++
      "name: Pairs # of blanks\naccept: either"
    let canonical := "name: Pairs\nstates: p\ninput: 'a'\nstack: '_'\ninitial: p\nfinal:\n" ++
      "accept: either\nrules:\np, 'a', ε -> p, '_''_'"
    ofText text = .ok pairs ∧ pairs.Legible ∧ pairs.canonicalText = canonical ∧
      ofText canonical = .ok pairs := by
  intro text canonical
  have read : ofText text = .ok pairs := by decide +kernel
  have printed : pairs.canonicalText = canonical := by decide +kernel
  obtain ⟨-, legible, again⟩ := ofText_legible read
  rw [printed] at again
  exact ⟨read, legible, printed, again (by decide) (by decide +kernel)⟩

end Definition

end Pushdown
