import Pushdown.Format.Walk
import Pushdown.Proofs.Documents

/-!
# The shape of trees

A pattern for trees goes along with the pattern for the values that are read off the same text.
`Alike` relates the two: they read and leave the same, and what the one makes of it holds of what
the other does. From the parts of the grammar up to whole texts this gives the shape of every tree
there is, and with it what a walk finds in it.
-/

namespace Pushdown.Format

open Pattern

/-- Two patterns read the same off every source, and note the same about what they try in vain. -/
structure Alike {α β : Type} (p : Pattern α) (q : Pattern β) (holds : α → β → Prop) : Prop where
  parse : ∀ s, p.parse s = none ∧ q.parse s = none ∨
    ∃ a b rest, p.parse s = some (a, rest) ∧ q.parse s = some (b, rest) ∧ holds a b
  survey : ∀ s noted, p.survey s noted = q.survey s noted

section Alike

variable {α β γ δ : Type} {p : Pattern α} {q : Pattern β} {holds : α → β → Prop}

theorem Alike.mapLeft {f : α → γ} {holds' : γ → β → Prop} (alike : Alike p q holds)
    (keeps : ∀ a b, holds a b → holds' (f a) b) : Alike (f <$> p) q holds' where
  parse s := by
    rw [parse_map]
    rcases alike.parse s with ⟨left, right⟩ | ⟨a, b, rest, left, right, held⟩
    · exact Or.inl ⟨by rw [left, Option.map_none], right⟩
    · exact Or.inr ⟨f a, b, rest, by rw [left, Option.map_some], right, keeps a b held⟩
  survey := alike.survey

theorem Alike.mapRight {g : β → δ} {holds' : α → δ → Prop} (alike : Alike p q holds)
    (keeps : ∀ a b, holds a b → holds' a (g b)) : Alike p (g <$> q) holds' where
  parse s := by
    rw [parse_map]
    rcases alike.parse s with ⟨left, right⟩ | ⟨a, b, rest, left, right, held⟩
    · exact Or.inl ⟨left, by rw [right, Option.map_none]⟩
    · exact Or.inr ⟨a, g b, rest, left, by rw [right, Option.map_some], keeps a b held⟩
  survey := alike.survey

theorem Alike.imp {holds' : α → β → Prop} (alike : Alike p q holds)
    (weaker : ∀ a b, holds a b → holds' a b) : Alike p q holds' where
  parse s := by
    refine (alike.parse s).imp_right ?_
    rintro ⟨a, b, rest, left, right, held⟩
    exact ⟨a, b, rest, left, right, weaker a b held⟩
  survey := alike.survey

theorem Alike.map {f : α → γ} {g : β → δ} {holds' : γ → δ → Prop} (alike : Alike p q holds)
    (keeps : ∀ a b, holds a b → holds' (f a) (g b)) : Alike (f <$> p) (g <$> q) holds' := by
  have left : Alike (f <$> p) q fun c b => holds' c (g b) := alike.mapLeft keeps
  exact left.mapRight fun _ _ held => held

theorem Alike.andThen {p' : Pattern γ} {q' : Pattern δ} {holds' : γ → δ → Prop}
    (first : Alike p q holds) (second : Alike p' q' holds') :
    Alike (p.andThen p') (q.andThen q') fun x y => holds x.1 y.1 ∧ holds' x.2 y.2 where
  parse s := by
    simp only [parse_andThen]
    rcases first.parse s with ⟨left, right⟩ | ⟨a, b, mid, left, right, held⟩
    · exact Or.inl (by simp [left, right])
    · rcases second.parse (skipBlanks mid) with ⟨left', right'⟩ | ⟨c, d, rest, left', right', held'⟩
      · exact Or.inl (by simp [left, right, left', right'])
      · exact Or.inr ⟨(a, c), (b, d), rest, by simp [left, left'], by simp [right, right'], held,
          held'⟩
  survey s noted := by
    unfold Pattern.andThen
    dsimp only
    rw [first.survey]
    rcases first.parse s with ⟨left, right⟩ | ⟨a, b, mid, left, right, -⟩
    · rw [left, right]
    · rw [left, right]
      exact second.survey _ _

theorem Alike.isSome_eq (alike : Alike p q holds) (s : Source) :
    (p.parse s).isSome = (q.parse s).isSome := by
  rcases alike.parse s with ⟨left, right⟩ | ⟨a, b, rest, left, right, -⟩
  · rw [left, right]
    rfl
  · rw [left, right]
    rfl

theorem Alike.named (alike : Alike p q holds) (part : Part) :
    Alike (p.named part) (q.named part) holds where
  parse := alike.parse
  survey s noted := by
    unfold Pattern.named
    dsimp only
    rw [alike.survey, alike.isSome_eq]

theorem Alike.orElse {p' : Pattern α} {q' : Pattern β} (first : Alike p q holds)
    (second : Alike p' q' holds) : Alike (p <|> p') (q <|> q') holds where
  parse s := by
    simp only [parse_orElse]
    rcases first.parse s with ⟨left, right⟩ | ⟨a, b, rest, left, right, held⟩
    · simpa [left, right] using second.parse s
    · exact Or.inr ⟨a, b, rest, by simp [left], by simp [right], held⟩
  survey s noted := by
    show (if (p.parse s).isSome then _ else p'.survey s _) =
      if (q.parse s).isSome then _ else q'.survey s _
    rw [first.survey, second.survey, first.isSome_eq]

theorem Alike.optional (alike : Alike p q holds) :
    Alike p.optional q.optional (Option.Rel holds) where
  parse s := by
    unfold Pattern.optional
    rcases alike.parse s with ⟨left, right⟩ | ⟨a, b, rest, left, right, held⟩
    · exact Or.inr ⟨none, none, s, by simp [left], by simp [right], .none⟩
    · exact Or.inr ⟨some a, some b, rest, by simp [left], by simp [right], .some held⟩
  survey := alike.survey

theorem Alike.collect (alike : Alike p q holds) (room : List Char) (s : Source) {found : List α}
    {found' : List β} (before : List.Forall₂ holds found found') :
    List.Forall₂ holds (p.collect room s found).1 (q.collect room s found').1 ∧
      (p.collect room s found).2 = (q.collect room s found').2 := by
  induction room generalizing s found found' with
  | nil => exact ⟨List.rel_reverse before, rfl⟩
  | cons _ room ih =>
    unfold Pattern.collect
    rcases alike.parse (skipBlanks s) with ⟨left, right⟩ | ⟨a, b, rest, left, right, held⟩
    · rw [left, right]
      exact ⟨List.rel_reverse before, rfl⟩
    · rw [left, right]
      exact ih rest (.cons held before)

theorem Alike.collectSurvey (alike : Alike p q holds) (room : List Char) (s : Source)
    (noted : Attempts) : p.collectSurvey room s noted = q.collectSurvey room s noted := by
  induction room generalizing s noted with
  | nil => exact alike.survey _ _
  | cons _ room ih =>
    unfold Pattern.collectSurvey
    rw [alike.survey]
    rcases alike.parse (skipBlanks s) with ⟨left, right⟩ | ⟨a, b, rest, left, right, -⟩
    · rw [left, right]
    · rw [left, right]
      exact ih rest _

theorem Alike.many (alike : Alike p q holds) : Alike p.many q.many (List.Forall₂ holds) where
  parse s := by
    obtain ⟨each, rest⟩ := alike.collect s.rest s .nil
    exact Or.inr ⟨_, _, _, rfl, congrArg some (Prod.ext rfl rest.symm), each⟩
  survey s noted := alike.collectSurvey s.rest s noted

theorem alike_silent (p : Pattern α) : Alike (silent p) p fun nodes _ => nodes = [] where
  parse s := by
    rw [silent, parse_map]
    cases p.parse s with
    | none => exact Or.inl ⟨rfl, rfl⟩
    | some found => exact Or.inr ⟨[], found.1, found.2, rfl, rfl, rfl⟩
  survey _ _ := rfl

end Alike

/-! ### Nodes -/

section Nodes

variable {α β : Type} {t u : Pattern (List Node)} {part : Part}

def Single (holds : Node → α → Prop) (nodes : List Node) (a : α) : Prop :=
  ∃ node, nodes = [node] ∧ holds node a

def One (part : Part) (holds : Node → α → Prop) : List Node → α → Prop :=
  Single fun node a => node.part = part ∧ holds node a

def Each (part : Part) (holds : Node → α → Prop) : List Node → List α → Prop :=
  List.Forall₂ fun node a => node.part = part ∧ holds node a

theorem Alike.append {p : Pattern (α → β)} {q : Pattern α} {P : List Node → (α → β) → Prop}
    {Q : List Node → α → Prop} {R : List Node → β → Prop} (first : Alike t p P)
    (second : Alike u q Q)
    (joined : ∀ nodes others f a, P nodes f → Q others a → R (nodes ++ others) (f a)) :
    Alike (t ++ u) (p <*> q) R :=
  (first.andThen second).map fun _ _ ⟨held, held'⟩ => joined _ _ _ _ held held'

theorem Alike.appendSilent {p : Pattern α} {P : List Node → α → Prop} (first : Alike t p P)
    (q : Pattern β) : Alike (t ++ silent q) (p <* q) P := by
  refine (first.andThen (alike_silent q)).map ?_
  rintro ⟨nodes, _⟩ _ ⟨held, rfl⟩
  simpa using held

theorem Alike.silentAppend {p : Pattern α} {P : List Node → α → Prop} (second : Alike t p P)
    (q : Pattern β) : Alike (silent q ++ t) (q *> p) P := by
  refine ((alike_silent q).andThen second).map ?_
  rintro ⟨_, nodes⟩ _ ⟨rfl, held⟩
  exact held

/-- What holds of the text that a pattern reads, holds of the text of its leaf. -/
theorem alike_leaf (part : Part) (p : Pattern α) (holds : List Char → α → Prop)
    (reads : ∀ s a rest, p.parse s = some (a, rest) → holds (s.upTo rest) a) :
    Alike (leaf part p) p (One part fun node a => holds node.text a) where
  parse s := by
    show (p.parse s).map _ = none ∧ _ ∨ ∃ nodes a rest, (p.parse s).map _ = _ ∧ _ ∧ _
    cases parsed : p.parse s with
    | none => exact Or.inl ⟨rfl, rfl⟩
    | some found =>
      exact Or.inr ⟨_, found.1, found.2, rfl, rfl, _, rfl, rfl, reads s _ _ parsed⟩
  survey _ _ := rfl

theorem Alike.branch {p : Pattern α} {P : List Node → α → Prop} (alike : Alike t p P)
    (part : Part) :
    Alike (Pattern.branch part t) (p.named part) (One part fun node a => P node.children a) := by
  have spanned : Alike (node part id t) p (One part fun node a => P node.children a) := by
    refine ⟨?_, alike.survey⟩
    intro s
    show (t.parse s).map _ = none ∧ _ ∨ ∃ nodes a rest, (t.parse s).map _ = _ ∧ _ ∧ _
    rcases alike.parse s with ⟨left, right⟩ | ⟨nodes, a, rest, left, right, held⟩
    · rw [left]
      exact Or.inl ⟨rfl, right⟩
    · rw [left]
      exact Or.inr ⟨_, a, rest, rfl, right, _, rfl, rfl, held⟩
  exact spanned.named part

theorem Alike.repeated {p : Pattern α} {holds : Node → α → Prop}
    (alike : Alike t p (Single holds)) : Alike t.repeated p.many (List.Forall₂ holds) := by
  refine alike.many.mapLeft ?_
  intro nodes as each
  induction each with
  | nil => exact .nil
  | cons single _ ih =>
    obtain ⟨node, rfl, held⟩ := single
    exact .cons held ih

theorem Alike.separated {p : Pattern α} {holds : Node → α → Prop}
    (alike : Alike t p (One part holds)) :
    Alike (Tree.separated t) (p.separatedBy comma) (Each part holds) := by
  have first : Alike t (List.cons <$> p) fun nodes f => ∃ a, f = List.cons a ∧
      One part holds nodes a := alike.mapRight fun nodes a one => ⟨a, rfl, one⟩
  refine first.append (alike.silentAppend comma).repeated ?_
  rintro _ others _ as ⟨a, rfl, node, rfl, same, held⟩ each
  exact .cons ⟨same, held⟩ each

end Nodes

/-! ### Leaves -/

theorem Source.upTo_drop (s : Source) (n : Nat) : s.upTo (s.drop n) = s.rest.take n := by
  simp [upTo, drop]

theorem upTo_characters {inClass : Char → Bool} {s rest : Source} {found : List Char}
    (parsed : (characters inClass).parse s = some (found, rest)) : s.upTo rest = found := by
  unfold characters scan at parsed
  dsimp only at parsed
  split at parsed
  · cases parsed
  · obtain ⟨rfl, rfl⟩ := Prod.mk.inj (Option.some.inj parsed)
    rw [Source.upTo_drop]
    exact (List.prefix_iff_eq_take.mp (List.takeWhile_prefix inClass)).symm

theorem upTo_literal {text : String} {s rest : Source}
    (parsed : (literal text).parse s = some ((), rest)) : s.upTo rest = text.toList := by
  change (s.dropText? text.toList).map _ = _ at parsed
  unfold Source.dropText? at parsed
  split at parsed
  · next starts =>
    obtain ⟨-, rfl⟩ := Prod.mk.inj (Option.some.inj parsed)
    rw [Source.upTo_drop]
    exact (List.prefix_iff_eq_take.mp (List.isPrefixOf_iff_prefix.mp starts)).symm
  · cases parsed

theorem alike_text : Alike Tree.text text (One .text fun node found => node.text = found) :=
  alike_leaf .text text _ fun _ _ _ parsed => upTo_characters parsed

theorem alike_state :
    Alike Tree.state state (One .state fun node q => String.ofList node.text = q) := by
  refine alike_leaf .state state (fun text q => String.ofList text = q) ?_
  intro s q rest parsed
  change ((characters isStateCharacter).parse s).map _ = _ at parsed
  obtain ⟨⟨found, rest⟩, read, same⟩ := Option.map_eq_some_iff.mp parsed
  obtain ⟨rfl, rfl⟩ := Prod.mk.inj same
  rw [upTo_characters read]

theorem alike_symbol :
    Alike Tree.symbol symbol (One .symbol fun node x => symbolIn node.text = x) := by
  refine alike_leaf .symbol symbol (fun text x => symbolIn text = x) ?_
  intro s x rest parsed
  change readSymbol s = some (x, rest) at parsed
  unfold readSymbol at parsed
  split at parsed
  · next c _ source =>
    split at parsed
    · cases parsed
    · obtain ⟨rfl, rfl⟩ := Prod.mk.inj (Option.some.inj parsed)
      rw [Source.upTo_drop, source]
      rfl
  · next c _ _ source =>
    split at parsed
    · cases parsed
    · next plain =>
      obtain ⟨rfl, rfl⟩ := Prod.mk.inj (Option.some.inj parsed)
      rw [Bool.not_eq_true] at plain
      have bare : c ≠ '\x27' := ne_of_not_isReserved plain rfl
      rw [Source.upTo_drop, source]
      simp [symbolIn, bare]
  · cases parsed

theorem alike_nothing : Alike Tree.nothing nothing (One .epsilon fun _ _ => True) :=
  alike_leaf .epsilon nothing (fun _ _ => True) fun _ _ _ _ => trivial

theorem alike_mode :
    Alike Tree.mode mode (One .mode fun node m => node.text = m.label.toList) := by
  refine alike_leaf .mode mode (fun text m => text = m.label.toList) ?_
  intro s m rest parsed
  have named {m' : Acceptance}
      (found : ((fun _ => m') <$> literal m'.label).parse s = some (m, rest)) :
      s.upTo rest = m.label.toList := by
    obtain ⟨⟨_, rest⟩, read, same⟩ := Option.map_eq_some_iff.mp found
    obtain ⟨rfl, rfl⟩ := Prod.mk.inj same
    exact upTo_literal read
  change Pattern.parse (_ <|> _ <|> _) s = _ at parsed
  simp only [parse_orElse, Option.orElse_eq_orElse, Option.orElse_eq_or, Option.or_eq_some_iff]
    at parsed
  rcases parsed with found | ⟨-, found | ⟨-, found⟩⟩
  · exact named found
  · exact named found
  · exact named found

/-! ### Lists and rules -/

section Lists

variable {α : Type} {part : Part} {nodes : List Node} {as : List α}

theorem Each.filter {holds : Node → α → Prop} (each : Each part holds nodes as) :
    nodes.filter (·.part = part) = nodes := by
  induction each with
  | nil => rfl
  | cons first _ ih => rw [List.filter_cons, if_pos (decide_eq_true first.1), ih]

theorem Each.map_filter {f : Node → α} (each : Each part (fun node a => f node = a) nodes as) :
    (nodes.filter (·.part = part)).map f = as := by
  rw [each.filter]
  induction each with
  | nil => rfl
  | cons first _ ih => rw [List.map_cons, first.2, ih]

theorem Each.mapM_filter {f : Node → Except Fault α}
    (each : Each part (fun node a => f node = .ok a) nodes as) :
    (nodes.filter (·.part = part)).mapM f = .ok as := by
  rw [each.filter]
  induction each with
  | nil => rfl
  | cons first _ ih =>
    rw [List.mapM_cons, first.2, ih]
    rfl

end Lists

theorem alike_read :
    Alike Tree.read read fun nodes r => ∃ node, nodes = [node] ∧ node.read = r := by
  have left : Alike Tree.nothing ((fun _ => none) <$> nothing) fun nodes (r : Option Symbol) =>
      ∃ node, nodes = [node] ∧ node.read = r := by
    refine alike_nothing.mapRight ?_
    rintro _ _ ⟨node, rfl, same, -⟩
    exact ⟨node, rfl, by simp [Node.read, same]⟩
  have right : Alike Tree.symbol (some <$> symbol) fun nodes (r : Option Symbol) =>
      ∃ node, nodes = [node] ∧ node.read = r := by
    refine alike_symbol.mapRight ?_
    rintro _ _ ⟨node, rfl, same, rfl⟩
    exact ⟨node, rfl, by simp [Node.read, same]⟩
  exact left.orElse right

theorem alike_push : Alike Tree.push push (One .push fun node w => node.symbols = w) := by
  have left : Alike Tree.nothing ((fun _ => []) <$> nothing) fun nodes (w : Word) =>
      (nodes.filter (·.part = .symbol)).map (symbolIn ·.text) = w := by
    refine alike_nothing.mapRight ?_
    rintro _ _ ⟨node, rfl, same, -⟩
    simp [same]
  have first : Alike Tree.symbol (List.cons <$> symbol) fun nodes f => ∃ x, f = List.cons x ∧
      One .symbol (fun node x => symbolIn node.text = x) nodes x :=
    alike_symbol.mapRight fun nodes x one => ⟨x, rfl, one⟩
  have right : Alike (Tree.symbol ++ Tree.symbol.repeated) symbol.many1 fun nodes (w : Word) =>
      (nodes.filter (·.part = .symbol)).map (symbolIn ·.text) = w := by
    refine first.append alike_symbol.repeated ?_
    rintro _ others _ xs ⟨x, rfl, node, rfl, held⟩ each
    have all : Each .symbol (fun node x => symbolIn node.text = x) (node :: others) (x :: xs) :=
      .cons held each
    exact all.map_filter
  exact (left.orElse right).branch .push

theorem alike_rule : Alike Tree.rule rule (One .rule fun node r => node.rule = .ok r) := by
  have origin : Alike Tree.state (Rule.mk <$> state) fun nodes f =>
      ∃ q, nodes = [q] ∧ f = Rule.mk (String.ofList q.text) := by
    refine alike_state.mapRight ?_
    rintro _ _ ⟨q, rfl, -, rfl⟩
    exact ⟨q, rfl, rfl⟩
  have reads := (origin.appendSilent comma).append alike_read
    (R := fun nodes f => ∃ q x, nodes = [q, x] ∧ f = Rule.mk (String.ofList q.text) x.read) <| by
      rintro _ _ _ _ ⟨q, rfl, rfl⟩ ⟨x, rfl, rfl⟩
      exact ⟨q, x, rfl, rfl⟩
  have pops := (reads.appendSilent comma).append alike_read
    (R := fun nodes f => ∃ q x y, nodes = [q, x, y] ∧
      f = Rule.mk (String.ofList q.text) x.read y.read) <| by
      rintro _ _ _ _ ⟨q, x, rfl, rfl⟩ ⟨y, rfl, rfl⟩
      exact ⟨q, x, y, rfl, rfl⟩
  have enters := (pops.appendSilent (literal "->")).append alike_state
    (R := fun nodes f => ∃ q x y q', nodes = [q, x, y, q'] ∧
      f = Rule.mk (String.ofList q.text) x.read y.read (String.ofList q'.text)) <| by
      rintro _ _ _ _ ⟨q, x, y, rfl, rfl⟩ ⟨q', rfl, -, rfl⟩
      exact ⟨q, x, y, q', rfl, rfl⟩
  have whole := (enters.appendSilent comma).append alike_push
    (R := fun nodes r => ∀ node : Node, node.children = nodes → node.rule = .ok r) <| by
      rintro _ _ _ _ ⟨q, x, y, q', rfl, rfl⟩ ⟨w, rfl, -, rfl⟩ node children
      simp [Node.rule, children, Node.next]
      rfl
  refine (whole.branch .rule).imp ?_
  rintro _ r ⟨node, rfl, same, held⟩
  exact ⟨node, rfl, same, held node rfl⟩

/-! ### Sections -/

theorem Alike.orNothing {α : Type} {t : Pattern (List Node)} {p : Pattern (List α)} {part : Part}
    {holds : Node → α → Prop} (alike : Alike t p (Each part holds)) :
    Alike t.orNothing p.optional fun nodes found => Each part holds nodes (found.getD []) := by
  refine alike.optional.mapLeft ?_
  rintro _ _ (each | _)
  · exact each
  · exact .nil

theorem alike_symbols : Alike (orNothing (Tree.separated Tree.symbol)) symbols
    (Each .symbol fun node x => symbolIn node.text = x) :=
  alike_symbol.separated.orNothing.mapRight fun _ _ each => each

/-- What stands inside a node that declares a section. -/
def Holds (kind : Section.Kind) (children : List Node) (sec : Section) : Prop :=
  sec.kind = kind ∧ ∀ node : Node, node.part = .declaration kind → node.children = children →
    node.section? = .ok (some sec)

theorem textOf_singleton (node : Node) : Node.textOf [node] = node.text := rfl

theorem mode_of_children {node inside : Node} {m : Acceptance} (children : node.children = [inside])
    (named : inside.text = m.label.toList) : node.mode = .ok m := by
  rw [Node.mode, children, textOf_singleton, named]
  cases m <;> rfl

theorem alike_body (kind : Section.Kind) : Alike (Tree.body kind) (bodyOf kind) (Holds kind) := by
  cases kind with
  | name =>
    refine alike_text.mapRight ?_
    rintro _ _ ⟨inside, rfl, -, rfl⟩
    refine ⟨rfl, fun node part children => ?_⟩
    rw [Node.section?, part, children, textOf_singleton]
  | states =>
    refine alike_state.separated.mapRight ?_
    intro nodes names each
    refine ⟨rfl, fun node part children => ?_⟩
    rw [Node.section?, part, Node.states, children, each.map_filter]
  | input | stack =>
    refine alike_symbols.mapRight ?_
    intro nodes found each
    refine ⟨rfl, fun node part children => ?_⟩
    rw [Node.section?, part, Node.symbols, children, each.map_filter]
  | initial =>
    refine alike_state.mapRight ?_
    rintro _ _ ⟨inside, rfl, -, rfl⟩
    refine ⟨rfl, fun node part children => ?_⟩
    rw [Node.section?, part, children, textOf_singleton]
  | finals =>
    refine alike_state.separated.orNothing.mapRight ?_
    intro nodes found each
    refine ⟨rfl, fun node part children => ?_⟩
    rw [Node.section?, part, Node.states, children, each.map_filter]
  | accept =>
    refine alike_mode.mapRight ?_
    rintro _ m ⟨inside, rfl, -, named⟩
    refine ⟨rfl, fun node part children => ?_⟩
    rw [Node.section?, part, mode_of_children children named]
    rfl
  | bottom =>
    refine alike_symbol.mapRight ?_
    rintro _ _ ⟨inside, rfl, same, rfl⟩
    refine ⟨rfl, fun node part children => ?_⟩
    rw [Node.section?, part, Node.symbols, children]
    simp [same]
  | rules =>
    refine (alike_rule.silentAppend newlines).repeated.mapRight ?_
    intro nodes rules each
    have each : Each .rule (fun node r => node.rule = .ok r) nodes rules := each
    refine ⟨rfl, fun node part children => ?_⟩
    rw [Node.section?, part, Node.rules, children, each.mapM_filter]
    rfl

def Node.Declares (node : Node) (sec : Section) : Prop :=
  node.part = .declaration sec.kind ∧ node.section? = .ok (some sec)

theorem alike_declaration (kind : Section.Kind) :
    Alike (Tree.declaration kind) (declaration kind (bodyOf kind)) (Single Node.Declares) := by
  refine (((alike_body kind).silentAppend _).branch (.declaration kind)).imp ?_
  rintro _ _ ⟨node, rfl, part, rfl, held⟩
  exact ⟨node, rfl, part, held node part rfl⟩

theorem alike_anySection : Alike Tree.anySection anySection (Single Node.Declares) :=
  (alike_declaration .name).orElse <| (alike_declaration .states).orElse <|
  (alike_declaration .input).orElse <| (alike_declaration .stack).orElse <|
  (alike_declaration .initial).orElse <| (alike_declaration .finals).orElse <|
  (alike_declaration .accept).orElse <| (alike_declaration .bottom).orElse <|
  alike_declaration .rules

/-- Nodes span all that was read for them. -/
def Spans (t : Pattern (List Node)) : Prop :=
  ∀ s nodes rest, t.parse s = some (nodes, rest) →
    ∀ node ∈ nodes, node.span = ⟨s.offset, rest.offset⟩

theorem spans_branch (part : Part) (t : Pattern (List Node)) : Spans (branch part t) := by
  intro s nodes rest parsed node member
  change (t.parse s).map _ = _ at parsed
  obtain ⟨⟨children, stop⟩, -, same⟩ := Option.map_eq_some_iff.mp parsed
  obtain ⟨rfl, rfl⟩ := Prod.mk.inj same
  obtain rfl := List.mem_singleton.mp member
  rfl

theorem Spans.orElse {t u : Pattern (List Node)} (first : Spans t) (second : Spans u) :
    Spans (t <|> u) := by
  intro s nodes rest parsed
  rw [parse_orElse] at parsed
  cases read : t.parse s with
  | none => exact second s nodes rest (by rwa [read] at parsed)
  | some found => exact first s nodes rest (by rwa [read] at parsed ⊢)

theorem Alike.located {α : Type} {t : Pattern (List Node)} {p : Pattern α}
    {P : List Node → α → Prop} (alike : Alike t p P) (spans : Spans t) :
    Alike t p.located fun nodes entry => P nodes entry.2 ∧ ∀ node ∈ nodes, node.span = entry.1 where
  parse s := by
    show _ ∧ (p.parse s).map _ = none ∨ ∃ nodes entry rest, _ ∧ (p.parse s).map _ = _ ∧ _
    rcases alike.parse s with ⟨left, right⟩ | ⟨nodes, a, rest, left, right, held⟩
    · rw [right]
      exact Or.inl ⟨left, rfl⟩
    · rw [right]
      exact Or.inr ⟨nodes, _, rest, left, rfl, held, spans s nodes rest left⟩
  survey := alike.survey

theorem spans_anySection : Spans Tree.anySection := by
  have each (kind : Section.Kind) : Spans (Tree.declaration kind) := spans_branch _ _
  exact (each .name).orElse <| (each .states).orElse <| (each .input).orElse <|
    (each .stack).orElse <| (each .initial).orElse <| (each .finals).orElse <|
    (each .accept).orElse <| (each .bottom).orElse <| each .rules

/-! ### Whole texts -/

def Node.Stands (node : Node) (entry : Span × Section) : Prop :=
  node.Declares entry.2 ∧ node.span = entry.1

/-- The root of a text's tree: the sections stand under it, and the end of the text behind them. -/
structure Document (root : Node) (found : List (Span × Section)) : Prop where
  part : root.part = .program
  children : ∃ nodes last, root.children = nodes ++ [last] ∧ last.part = .endOfInput ∧
    List.Forall₂ Node.Stands nodes found

theorem alike_program : Alike Tree.program program (Single Document) := by
  have line : Alike (Tree.anySection ++ silent ending) sectionLine (Single Node.Stands) := by
    have located := alike_anySection.located spans_anySection
    refine (located.appendSilent ending).imp ?_
    rintro _ entry ⟨⟨node, rfl, declares⟩, spans⟩
    exact ⟨node, rfl, declares, spans node (List.mem_singleton_self node)⟩
  have start : Alike (silent startOfInput ++ silent newline.many) (startOfInput *> newline.many)
      fun nodes _ => nodes = [] := (alike_silent newline.many).silentAppend startOfInput
  have last : Alike (leaf .endOfInput endOfInput) endOfInput (One .endOfInput fun _ _ => True) :=
    alike_leaf .endOfInput endOfInput (fun _ _ => True) fun _ _ _ _ => trivial
  have sections : Alike (silent startOfInput ++ silent newline.many ++
      repeated (Tree.anySection ++ silent ending))
      (startOfInput *> newline.many *> sectionLine.many) (List.Forall₂ Node.Stands) := by
    refine (start.andThen line.repeated).map ?_
    rintro ⟨_, nodes⟩ _ ⟨rfl, each⟩
    exact each
  have whole : Alike (silent startOfInput ++ silent newline.many ++
      repeated (Tree.anySection ++ silent ending) ++ leaf .endOfInput endOfInput)
      (startOfInput *> newline.many *> sectionLine.many <* endOfInput) fun children found =>
        ∃ nodes last, children = nodes ++ [last] ∧ last.part = .endOfInput ∧
          List.Forall₂ Node.Stands nodes found := by
    refine (sections.andThen last).map ?_
    rintro ⟨nodes, _⟩ _ ⟨each, last, rfl, part, -⟩
    exact ⟨nodes, last, rfl, part, each⟩
  refine (whole.branch .program).imp ?_
  rintro _ found ⟨root, rfl, part, children⟩
  exact ⟨root, rfl, part, children⟩

/-- A text has a tree exactly when it has sections, and the tree is one of a document with these
sections; otherwise the same diagnostic is given for both. -/
theorem treeOf_cases (text : List Char) :
    (∃ root found, treeOf text = .ok [root] ∧ sectionsOf text = .ok found ∧ Document root found) ∨
      ∃ diagnostic, treeOf text = .error diagnostic ∧ sectionsOf text = .error diagnostic := by
  unfold treeOf sectionsOf
  rcases alike_program.parse (.ofText text) with
    ⟨left, right⟩ | ⟨_, found, rest, left, right, root, rfl, document⟩
  · rw [left, right]
    exact Or.inr ⟨_, rfl, by rw [alike_program.survey]⟩
  · rw [left, right]
    exact Or.inl ⟨root, found, rfl, rfl, document⟩

end Pushdown.Format
