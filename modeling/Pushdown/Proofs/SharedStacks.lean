import Mathlib.Data.List.Perm.Basic
import Pushdown.Proofs.Owners
import Pushdown.Stack.Linked

/-!
# Stacks that share their nodes

Linked stacks do what stacks do, whatever nodes they share and in whatever order they were made:
`performAll_succeeds`. The relation between the two is `Memory.Keeps`. Each operation hands it on to
the stacks there are after it, and from it follows what is read of a stack.
-/

namespace Pushdown

namespace Linked

/-- The linked stacks that are kept in a memory stand for these stacks, and theirs are the only
links into it. -/
structure Memory.Keeps (m : Memory) (kept : List (Linked × Stack)) : Prop where
  len_eq : ∀ p ∈ kept, p.1.len = p.2.height
  holds : m.Holds (kept.map fun p => (p.1.top, p.2.toList))

namespace Memory.Keeps

variable {m : Memory} {s t : Linked} {v w : Stack} {kept kept' : List (Linked × Stack)}

theorem perm (keeps : m.Keeps kept) (perm : kept.Perm kept') : m.Keeps kept' where
  len_eq p member := keeps.len_eq p (perm.mem_iff.mpr member)
  holds := keeps.holds.perm (perm.map _)

theorem cons (len : s.len = v.height) (others : ∀ p ∈ kept, p.1.len = p.2.height)
    (holds : m.Holds ((s.top, v.toList) :: kept.map fun p => (p.1.top, p.2.toList))) :
    m.Keeps ((s, v) :: kept) where
  len_eq := List.forall_mem_cons.mpr ⟨len, others⟩
  holds := holds

theorem reads (keeps : m.Keeps kept) (member : (s, v) ∈ kept) :
    m.symbolsFrom s.top = .ok v.toList :=
  keeps.holds.reads _ (List.mem_map_of_mem (f := fun p => (p.1.top, p.2.toList)) member)

/-! ### Operations -/

theorem new (keeps : m.Keeps kept) : m.Keeps ((new, .empty) :: kept) :=
  cons rfl keeps.len_eq (holds_cons keeps.holds.counted symbolsFrom_none keeps.holds.reads)

theorem clone (keeps : m.Keeps kept) (member : (s, v) ∈ kept) :
    Succeeds s.clone m fun t m' => m'.Keeps ((t, v) :: kept) := by
  refine (share_succeeds keeps.holds (keeps.reads member)).bind ?_
  rintro link m' ⟨rfl, holds⟩
  exact succeeds_pure (cons (keeps.len_eq _ member) keeps.len_eq holds)

theorem drop (keeps : m.Keeps ((s, v) :: kept)) :
    Succeeds s.drop m fun _ m' => m'.Keeps kept := by
  obtain ⟨x, m', ran, holds⟩ := release_succeeds keeps.holds
  exact ⟨x, m', ran, fun p member => keeps.len_eq p (List.mem_cons_of_mem _ member), holds⟩

theorem pushOne (keeps : m.Keeps ((s, v) :: kept)) (symbol : Symbol) :
    Succeeds (s.pushOne symbol) m fun t m' => m'.Keeps ((t, v.pushOne symbol) :: kept) := by
  obtain ⟨len, others⟩ := List.forall_mem_cons.mp keeps.len_eq
  refine (share_succeeds keeps.holds (keeps.reads List.mem_cons_self)).bind ?_
  rintro link m₁ ⟨rfl, holds₁⟩
  refine (allocate_succeeds holds₁).bind ?_
  intro top m₂ holds₂
  -- The node has a link of its own to what the stack gives up.
  refine (release_succeeds (holds₂.perm (List.Perm.swap ..))).bind ?_
  intro _ m₃ holds₃
  exact succeeds_pure (cons (congrArg Nat.succ len) others holds₃)

theorem pushEach (keeps : m.Keeps ((s, v) :: kept)) (word : Word) :
    Succeeds (word.foldlM Linked.pushOne s) m fun t m' => m'.Keeps ((t, v.push word) :: kept) := by
  induction word generalizing s v m with
  | nil => exact succeeds_pure keeps
  | cons symbol word ih =>
    rw [List.foldlM_cons]
    exact (keeps.pushOne symbol).bind fun t m' keeps' => ih keeps'

theorem push (keeps : m.Keeps kept) (member : (s, v) ∈ kept) (word : Word) :
    Succeeds (s.push word) m fun t m' => m'.Keeps ((t, v.push word) :: kept) :=
  (keeps.clone member).bind fun _ _ keeps' => keeps'.pushEach word

theorem ofWord (keeps : m.Keeps kept) (word : Word) :
    Succeeds (ofWord word) m fun t m' => m'.Keeps ((t, .ofWord word) :: kept) :=
  keeps.new.pushEach word

theorem pop? (keeps : m.Keeps kept) (member : (s, v) ∈ kept) :
    Succeeds s.pop? m fun popped m' => ∃ next : Option (Linked × Stack),
      next.map Prod.fst = popped ∧ next.map Prod.snd = v.pop? ∧ m'.Keeps (next.toList ++ kept) := by
  have reads := keeps.reads member
  obtain ⟨top, n⟩ := s
  obtain ⟨symbols, height, counted⟩ := v
  have len : n = height := keeps.len_eq _ member
  cases symbols with
  | nil =>
    obtain rfl : top = none := symbolsFrom_eq_nil.mp reads
    exact ⟨none, m, rfl, none, rfl, rfl, keeps⟩
  | cons x xs =>
    obtain ⟨a, cell, rfl, found, -, rest⟩ := symbolsFrom_eq_cons.mp reads
    have positive : n ≠ 0 := by
      rw [len, counted]
      exact Nat.succ_ne_zero _
    -- It is the node that holds this link, and not one of the stacks.
    obtain ⟨link, m', shared, rfl, holds⟩ := share_succeeds keeps.holds rest
    refine ⟨some ⟨cell.below, n - 1⟩, m', ?_,
      some (⟨cell.below, n - 1⟩, ⟨xs, height - 1, by simp [counted]⟩), rfl, rfl, ?_⟩
    · simp only [Linked.pop?, EStateM.run_bind, EStateM.run_get, found, shared, if_neg positive]
      rfl
    · exact cons (congrArg (· - 1) len) keeps.len_eq holds

/-! ### What is read -/

theorem iter (keeps : m.Keeps kept) (member : (s, v) ∈ kept) : s.iter m = .ok v.toList :=
  keeps.reads member

theorem toWord (keeps : m.Keeps kept) (member : (s, v) ∈ kept) : s.toWord m = .ok v.toWord := by
  rw [Linked.toWord, keeps.iter member]
  rfl

theorem isEmpty_iff (keeps : m.Keeps kept) (member : (s, v) ∈ kept) :
    s.isEmpty = true ↔ s.len = 0 := by
  rw [Linked.isEmpty, Option.isNone_iff_eq_none, ← symbolsFrom_eq_nil (m := m),
    keeps.reads member, keeps.len_eq _ member, v.height_eq, List.length_eq_zero_iff,
    Except.ok.injEq]

theorem top? (keeps : m.Keeps kept) (member : (s, v) ∈ kept) : s.top? m = .ok v.top := by
  have reads := keeps.reads member
  rw [Stack.top, Linked.top?]
  cases symbols : v.toList with
  | nil =>
    rw [symbols] at reads
    rw [symbolsFrom_eq_nil.mp reads]
    rfl
  | cons x xs =>
    rw [symbols] at reads
    obtain ⟨a, cell, top, found, rfl, -⟩ := symbolsFrom_eq_cons.mp reads
    simp only [top, found]
    rfl

theorem same (keeps : m.Keeps kept) (first : (s, v) ∈ kept) (second : (t, w) ∈ kept) :
    s.same m t = .ok (decide (v = w)) := by
  rw [Linked.same, keeps.iter first, keeps.iter second, keeps.len_eq _ first,
    keeps.len_eq _ second]
  split
  · have symbols : Stack.sameSymbols v.toList w.toList = decide (v = w) := by
      rw [Bool.eq_iff_iff, Stack.sameSymbols_iff, decide_eq_true_eq]
      exact ⟨Stack.ext, congrArg Stack.toList⟩
    exact congrArg Except.ok symbols
  · next apart =>
    rw [decide_eq_false fun same => apart (congrArg Stack.height same)]
    rfl

theorem hashed (keeps : m.Keeps kept) (member : (s, v) ∈ kept) :
    s.hashed m = .ok (.size v.height :: v.toList.map (.scalar ·.val)) := by
  rw [Linked.hashed, keeps.iter member, keeps.len_eq _ member]
  rfl

end Memory.Keeps

/-! ### Histories -/

/-- What a call comes to where stacks are values that have nothing to do with one another. -/
def Call.apply (values : List Stack) : Call → List Stack
  | .new => values ++ [.empty]
  | .ofWord word => values ++ [.ofWord word]
  | .push i word => values ++ (values[i]?.map (·.push word)).toList
  | .pop i => values ++ (values[i]?.bind Stack.pop?).toList
  | .clone i => values ++ values[i]?.toList
  | .drop i => values.set i .empty

section Histories

variable {m : Memory} {kept : List (Linked × Stack)} {s : Linked} {v : Stack}

def Leaves (values : List Stack) (linked : List Linked) (m : Memory) : Prop :=
  ∃ kept, kept.map Prod.fst = linked ∧ kept.map Prod.snd = values ∧ m.Keeps kept

theorem Memory.Keeps.leaves (keeps : m.Keeps kept) :
    Leaves (kept.map Prod.snd) (kept.map Prod.fst) m :=
  ⟨kept, rfl, rfl, keeps⟩

theorem Memory.Keeps.leaves_concat (keeps : m.Keeps ((s, v) :: kept)) :
    Leaves (kept.map Prod.snd ++ [v]) (kept.map Prod.fst ++ [s]) m :=
  ⟨kept ++ [(s, v)], List.map_append, List.map_append,
    keeps.perm (List.perm_append_singleton ..).symm⟩

theorem Memory.Keeps.replace {i : Nat} (keeps : m.Keeps kept) (there : kept[i]? = some (s, v)) :
    Succeeds s.drop m fun _ m' => m'.Keeps (kept.set i (Linked.new, .empty)) := by
  obtain ⟨inside, here⟩ := List.getElem?_eq_some_iff.mp there
  -- In what order links are held makes no difference, so the stack may as well come first.
  have first : m.Keeps ((s, v) :: kept.eraseIdx i) :=
    keeps.perm (here ▸ (List.getElem_cons_eraseIdx_perm inside).symm)
  obtain ⟨_, m', ran, keeps'⟩ := first.drop
  exact ⟨(), m', ran, keeps'.new.perm (List.set_perm_cons_eraseIdx inside _).symm⟩

theorem perform_succeeds (keeps : m.Keeps kept) (call : Call) :
    Succeeds (perform (kept.map Prod.fst) call) m (Leaves (call.apply (kept.map Prod.snd))) := by
  cases call with
  | new => exact succeeds_pure keeps.new.leaves_concat
  | ofWord word =>
    exact (keeps.ofWord word).bind fun t m' keeps' => succeeds_pure keeps'.leaves_concat
  | push i word =>
    rw [perform, Call.apply, List.getElem?_map, List.getElem?_map]
    cases there : kept[i]? with
    | none => simpa using succeeds_pure keeps.leaves
    | some p =>
      refine (keeps.push (List.mem_of_getElem? there) word).bind ?_
      exact fun t m' keeps' => succeeds_pure keeps'.leaves_concat
  | pop i =>
    rw [perform, Call.apply, List.getElem?_map, List.getElem?_map]
    cases there : kept[i]? with
    | none => simpa using succeeds_pure keeps.leaves
    | some p =>
      refine (keeps.pop? (List.mem_of_getElem? there)).bind ?_
      rintro popped m' ⟨next, rfl, popped, keeps'⟩
      rw [Option.map_some, Option.bind_some, ← popped]
      cases next with
      | none => simpa using succeeds_pure keeps'.leaves
      | some q => exact succeeds_pure keeps'.leaves_concat
  | clone i =>
    rw [perform, Call.apply, List.getElem?_map, List.getElem?_map]
    cases there : kept[i]? with
    | none => simpa using succeeds_pure keeps.leaves
    | some p =>
      refine (keeps.clone (List.mem_of_getElem? there)).bind ?_
      exact fun t m' keeps' => succeeds_pure keeps'.leaves_concat
  | drop i =>
    rw [perform, List.getElem?_map]
    cases there : kept[i]? with
    | none =>
      have outside : kept.length ≤ i := List.getElem?_eq_none_iff.mp there
      have unchanged : (kept.map Prod.snd).set i .empty = kept.map Prod.snd :=
        List.set_eq_of_length_le (by simpa using outside)
      rw [Call.apply, unchanged]
      exact succeeds_pure keeps.leaves
    | some p =>
      refine (keeps.replace there).bind ?_
      exact fun _ m' keeps' => succeeds_pure ⟨_, List.map_set, List.map_set, keeps'⟩

theorem performAll_succeeds (calls : List Call) :
    Succeeds (performAll calls) .empty (Leaves (calls.foldl Call.apply [])) := by
  have from_any : ∀ {kept : List (Linked × Stack)} {m : Memory}, m.Keeps kept →
      Succeeds (calls.foldlM perform (kept.map Prod.fst)) m
        (Leaves (calls.foldl Call.apply (kept.map Prod.snd))) := by
    induction calls with
    | nil => exact fun keeps => succeeds_pure keeps.leaves
    | cons call calls ih =>
      intro kept m keeps
      rw [List.foldlM_cons, List.foldl_cons]
      refine (perform_succeeds keeps call).bind ?_
      rintro linked m' ⟨kept', rfl, after, keeps'⟩
      rw [← after]
      exact ih keeps'
  have nothing : Memory.empty.Keeps [] := ⟨nofun, Memory.holds_empty⟩
  exact from_any nothing

end Histories

/-- A stack that is kept beside others is in all that can be asked of it a stack of the symbols of a
word, bottom first. -/
structure Behaves (m : Memory) (shelf : List Linked) (s : Linked) (word : Word) : Prop where
  toWord_eq : s.toWord m = .ok word
  iter_eq : s.iter m = .ok word.reverse
  len_eq : s.len = word.length
  isEmpty_iff : s.isEmpty = true ↔ s.len = 0
  push : ∀ more, Succeeds (s.push more) m fun t m' =>
    t.toWord m' = .ok (word ++ more) ∧ ∀ u ∈ shelf, u.toWord m' = u.toWord m
  /-- No length is counted below zero: that would be a fault. -/
  pop : Succeeds s.pop? m fun popped m' => (popped = none ↔ s.isEmpty = true) ∧
    (∀ t ∈ popped, ∃ rest x, word = rest ++ [x] ∧ s.top? m = .ok (some x) ∧
      t.toWord m' = .ok rest) ∧ ∀ u ∈ shelf, u.toWord m' = u.toWord m
  same_eq : ∀ t ∈ shelf, ∃ other, t.toWord m = .ok other ∧
    s.same m t = .ok (decide (word = other))
  hashed_eq : ∃ written, s.hashed m = .ok written ∧
    ∀ t ∈ shelf, t.toWord m = .ok word → t.hashed m = .ok written

/-- What was kept before is not touched by what has come to it. -/
theorem Memory.Keeps.undisturbed {m m' : Memory} {kept : List (Linked × Stack)}
    (keeps : m.Keeps kept) (more : List (Linked × Stack)) (keeps' : m'.Keeps (more ++ kept)) :
    ∀ u ∈ kept.map Prod.fst, u.toWord m' = u.toWord m := by
  intro u among
  obtain ⟨p, member, rfl⟩ := List.mem_map.mp among
  exact (keeps'.toWord (List.mem_append_right _ member)).trans (keeps.toWord member).symm

theorem Memory.Keeps.behaves {m : Memory} {kept : List (Linked × Stack)} {s : Linked} {v : Stack}
    (keeps : m.Keeps kept) (member : (s, v) ∈ kept) :
    Behaves m (kept.map Prod.fst) s v.toWord where
  toWord_eq := keeps.toWord member
  iter_eq := by rw [keeps.iter member, Stack.toWord, List.reverse_reverse]
  len_eq := by rw [keeps.len_eq _ member, v.height_eq, Stack.toWord, List.length_reverse]
  isEmpty_iff := keeps.isEmpty_iff member
  push more := by
    obtain ⟨t, m', ran, keeps'⟩ := keeps.push member more
    refine ⟨t, m', ran, ?_, keeps.undisturbed [_] keeps'⟩
    rw [keeps'.toWord List.mem_cons_self, Stack.toWord_push]
  pop := by
    obtain ⟨_, m', ran, next, rfl, popped, keeps'⟩ := keeps.pop? member
    refine ⟨_, m', ran, ?_, ?_, keeps.undisturbed _ keeps'⟩
    · rw [keeps.isEmpty_iff member, keeps.len_eq _ member, v.height_eq, List.length_eq_zero_iff,
        ← Stack.pop?_eq_none, ← popped, Option.map_eq_none_iff, Option.map_eq_none_iff]
    · intro t among
      obtain ⟨⟨t, w⟩, rfl, rfl⟩ := Option.map_eq_some_iff.mp among
      obtain ⟨x, symbols⟩ := Stack.pop?_eq_some.mp popped.symm
      refine ⟨w.toWord, x, ?_, ?_, keeps'.toWord List.mem_cons_self⟩
      · rw [Stack.toWord, symbols, List.reverse_cons, Stack.toWord]
      · rw [keeps.top? member, Stack.top, symbols, List.head?_cons]
  same_eq t among := by
    obtain ⟨⟨t, w⟩, member', rfl⟩ := List.mem_map.mp among
    refine ⟨w.toWord, keeps.toWord member', ?_⟩
    rw [keeps.same member member', decide_eq_decide.mpr Stack.toWord_inj]
  hashed_eq := by
    refine ⟨_, keeps.hashed member, ?_⟩
    intro t among holds
    obtain ⟨⟨t, w⟩, member', rfl⟩ := List.mem_map.mp among
    obtain rfl : w = v :=
      Stack.toWord_inj.mp (Except.ok.inj ((keeps.toWord member').symm.trans holds))
    exact keeps.hashed member'

/-- Stacks that a history of calls has made hold what the same calls come to where no two stacks have
anything to do with one another, and each of them behaves as a stack of the symbols that it holds,
whatever it was made from and whatever nodes it shares. -/
theorem stacks_despite_sharing (calls : List Call) :
    Succeeds (performAll calls) .empty fun shelf m =>
      shelf.map (·.toWord m) = (calls.foldl Call.apply []).map (.ok ·.toWord) ∧
      ∀ s ∈ shelf, ∃ word, Behaves m shelf s word := by
  obtain ⟨_, m, ran, kept, rfl, plain, keeps⟩ := performAll_succeeds calls
  refine ⟨_, m, ran, ?_, ?_⟩
  · rw [← plain, List.map_map, List.map_map]
    exact List.map_congr_left fun p member => keeps.toWord member
  · intro s among
    obtain ⟨p, member, rfl⟩ := List.mem_map.mp among
    exact ⟨_, keeps.behaves member⟩

/-- Without its topmost symbol, `XYZ` shares two nodes with the whole, which is dropped later. It is
equal to `XY` with nodes of its own, and hashed alike. -/
theorem stacks_despite_sharing_popped :
    Succeeds (performAll [.ofWord ['X', 'Y', 'Z'], .pop 0, .ofWord ['X', 'Y'], .drop 0]) .empty
      fun shelf m => ∃ dropped popped built, shelf = [dropped, popped, built] ∧
        popped.len = 2 ∧ popped.same m built = .ok true ∧
        ∃ written, popped.hashed m = .ok written ∧ built.hashed m = .ok written := by
  obtain ⟨shelf, m, ran, words, behaves⟩ := stacks_despite_sharing
    [.ofWord ['X', 'Y', 'Z'], .pop 0, .ofWord ['X', 'Y'], .drop 0]
  have values : [.ofWord ['X', 'Y', 'Z'], .pop 0, .ofWord ['X', 'Y'], .drop 0].foldl Call.apply [] =
      [.empty, .ofWord ['X', 'Y'], .ofWord ['X', 'Y']] := by decide
  rw [values] at words
  obtain ⟨dropped, popped, built, rfl⟩ :=
    List.length_eq_three.mp (by simpa using congrArg List.length words)
  simp only [List.map_cons, List.map_nil, Stack.toWord_ofWord, List.cons.injEq, and_true] at words
  obtain ⟨-, popped_holds, built_holds⟩ := words
  obtain ⟨_, behaves⟩ := behaves popped (by simp)
  obtain rfl := Except.ok.inj (behaves.toWord_eq.symm.trans popped_holds)
  refine ⟨_, m, ran, dropped, popped, built, rfl, behaves.len_eq, ?_, ?_⟩
  · obtain ⟨_, holds, same⟩ := behaves.same_eq built (by simp)
    obtain rfl := Except.ok.inj (holds.symm.trans built_holds)
    exact same
  · obtain ⟨written, popped_hashed, hashed⟩ := behaves.hashed_eq
    exact ⟨written, popped_hashed, hashed built (by simp) built_holds⟩

end Linked

end Pushdown
