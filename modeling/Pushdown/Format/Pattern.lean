import Pushdown.Format.Diagnostic

/-!
# Patterns

A pattern reads a value off the head of a source or fails; it commits to the first alternative that
fits and repeats as often as it can. Between two parts of a sequence and between repetitions, blanks
and comments are passed over. Apart from `parse`, every pattern has a `survey`, which is consulted
only when a whole text has failed: it keeps the named parts that were tried in vain at the furthest
position that any of them was tried at.
-/

namespace Pushdown.Format

/-- The parts that were not found at the furthest position where one was tried. -/
structure Attempts where
  position : Nat
  parts : List Part
  deriving DecidableEq, Repr

namespace Attempts

def none : Attempts := ⟨0, []⟩

def countAt (a : Attempts) (position : Nat) : Nat :=
  if a.position = position then a.parts.length else 0

/-- Adds that a part was not found at a position; `before` is what was noted when its turn came.
A part stands for those inside it that were tried at the same position, unless there was just one:
that one says more than the part around it. -/
def note (after before : Attempts) (part : Part) (position : Nat) : Attempts :=
  let known := before.countAt position
  if after.countAt position = known + 1 then after
  else if after.position < position then ⟨position, [part]⟩
  else if after.position = position then ⟨position, after.parts.take known ++ [part]⟩
  else after

end Attempts

/-- A way to read a value off the head of a source. -/
structure Pattern (α : Type) where
  /-- The value and what is left, or nothing if the source does not start that way. -/
  parse : Source → Option (α × Source)
  /-- What is noted about the parts that the pattern tries, added to what was noted before. -/
  survey : Source → Attempts → Attempts

/-- Passes over spaces and tabs, and over a comment up to the end of its line. -/
def skipBlanks (s : Source) : Source :=
  let s := s.dropWhile fun c => c = ' ' || c = '\t'
  if s.rest.head? = some '#' then s.dropWhile (!isNewline ·) else s

namespace Pattern

variable {α β : Type}

def scan (read : Source → Option (α × Source)) : Pattern α where
  parse := read
  survey _ noted := noted

def named (part : Part) (p : Pattern α) : Pattern α where
  parse := p.parse
  survey s before :=
    let after := p.survey s before
    if (p.parse s).isSome then after else after.note before part s.offset

/-- One pattern after another, with blanks and comments between them. -/
def andThen (p : Pattern α) (q : Pattern β) : Pattern (α × β) where
  parse s :=
    match p.parse s with
    | none => none
    | some (a, s) => (q.parse (skipBlanks s)).map fun (b, s) => ((a, b), s)
  survey s noted :=
    let noted := p.survey s noted
    match p.parse s with
    | none => noted
    | some (_, s) => q.survey (skipBlanks s) noted

instance : Functor Pattern where
  map f p := { parse s := (p.parse s).map fun (a, s) => (f a, s), survey := p.survey }

instance : Seq Pattern where
  seq p q := (fun (f, a) => f a) <$> p.andThen (q ())

instance : SeqLeft Pattern where
  seqLeft p q := Prod.fst <$> p.andThen (q ())

instance : SeqRight Pattern where
  seqRight p q := Prod.snd <$> p.andThen (q ())

instance : OrElse (Pattern α) where
  orElse p q :=
    { parse s := match p.parse s with
        | some found => some found
        | none => (q ()).parse s
      survey s noted :=
        let noted := p.survey s noted
        if (p.parse s).isSome then noted else (q ()).survey s noted }

/-- A value if the source starts with one; nothing is read otherwise. -/
def optional (p : Pattern α) : Pattern (Option α) where
  parse s := match p.parse s with
    | some (a, s) => some (some a, s)
    | none => some (none, s)
  survey := p.survey

/-- Whether the source starts that way; nothing is read. -/
def lookingAt (p : Pattern α) : Pattern Unit where
  parse s := (p.parse s).map fun _ => ((), s)
  survey := p.survey

def located (p : Pattern α) : Pattern (Span × α) where
  parse s := (p.parse s).map fun (a, s') => ((⟨s.offset, s'.offset⟩, a), s')
  survey := p.survey

/-- Reads values one after another; each takes at least a character, so `room` is long enough when
it is as long as what is left to read. -/
def collect (p : Pattern α) : (room : List Char) → Source → (found : List α) → List α × Source
  | [], s, found => (found.reverse, s)
  | _ :: room, s, found =>
    match p.parse (skipBlanks s) with
    | none => (found.reverse, s)
    | some (a, s) => p.collect room s (a :: found)

def collectSurvey (p : Pattern α) : (room : List Char) → Source → Attempts → Attempts
  | [], s, noted => p.survey (skipBlanks s) noted
  | _ :: room, s, noted =>
    let noted := p.survey (skipBlanks s) noted
    match p.parse (skipBlanks s) with
    | none => noted
    | some (_, s) => p.collectSurvey room s noted

/-- Any number of values. The blanks before a value that is missing are left unread. -/
def many (p : Pattern α) : Pattern (List α) where
  parse s := some (p.collect s.rest s [])
  survey s noted := p.collectSurvey s.rest s noted

def many1 (p : Pattern α) : Pattern (List α) := List.cons <$> p <*> p.many

/-- One value or more, with a separator between any two. -/
def separatedBy (p : Pattern α) (separator : Pattern β) : Pattern (List α) :=
  List.cons <$> p <*> (separator *> p).many

/-! ### What combined patterns read -/

@[simp] theorem parse_named (part : Part) (p : Pattern α) : (p.named part).parse = p.parse := rfl

@[simp] theorem parse_map (f : α → β) (p : Pattern α) (s : Source) :
    (f <$> p).parse s = (p.parse s).map fun (a, s) => (f a, s) := rfl

theorem parse_andThen (p : Pattern α) (q : Pattern β) (s : Source) :
    (p.andThen q).parse s =
      (p.parse s).bind fun (a, s) => (q.parse (skipBlanks s)).map fun (b, s) => ((a, b), s) := by
  simp only [andThen]
  cases p.parse s <;> rfl

@[simp] theorem parse_seq (p : Pattern (α → β)) (q : Pattern α) (s : Source) :
    (p <*> q).parse s =
      (p.parse s).bind fun (f, s) => (q.parse (skipBlanks s)).map fun (a, s) => (f a, s) := by
  show ((fun (f, a) => f a) <$> p.andThen q).parse s = _
  rw [parse_map, parse_andThen]
  cases p.parse s <;> simp [Option.map_map, Function.comp_def]

@[simp] theorem parse_seqLeft (p : Pattern α) (q : Pattern β) (s : Source) :
    (p <* q).parse s =
      (p.parse s).bind fun (a, s) => (q.parse (skipBlanks s)).map fun (_, s) => (a, s) := by
  show (Prod.fst <$> p.andThen q).parse s = _
  rw [parse_map, parse_andThen]
  cases p.parse s <;> simp [Option.map_map, Function.comp_def]

@[simp] theorem parse_seqRight (p : Pattern α) (q : Pattern β) (s : Source) :
    (p *> q).parse s = (p.parse s).bind fun (_, s) => q.parse (skipBlanks s) := by
  show (Prod.snd <$> p.andThen q).parse s = _
  rw [parse_map, parse_andThen]
  cases p.parse s <;> simp [Option.map_map, Function.comp_def]

@[simp] theorem parse_orElse (p q : Pattern α) (s : Source) :
    (p <|> q).parse s = (p.parse s <|> q.parse s) := by
  show (match p.parse s with
    | some found => some found
    | none => q.parse s) = _
  cases p.parse s <;> rfl

/-! ### Characters -/

def literal (text : String) : Pattern Unit := scan fun s => (s.dropText? text.toList).map ((), ·)

/-- One character or more of a class, and all there are. -/
def characters (inClass : Char → Bool) : Pattern (List Char) := scan fun s =>
  match s.takeWhile inClass with
  | ([], _) => none
  | found => some found

/-- The end of a line: a line feed, a carriage return, or one after the other. -/
def newline : Pattern Unit := scan fun s =>
  match s.rest with
  | '\n' :: _ => some ((), s.drop 1)
  | '\r' :: '\n' :: _ => some ((), s.drop 2)
  | '\r' :: _ => some ((), s.drop 1)
  | _ => none

def startOfInput : Pattern Unit := scan fun s => some ((), s)

def endOfInput : Pattern Unit :=
  named .endOfInput <| scan fun s => if s.rest.isEmpty then some ((), s) else none

end Pattern

end Pushdown.Format
