import ShaderTree.Proofs.Parser.Lossless
import ShaderTree.Proofs.Parser.Spelled

/-! A parse comes to an end if the reductions of the table do. Consuming a token shortens the input
and pretending one uses up an allowance; between two of these there are reductions on one terminal,
and a repair that gives up entries leads straight to the next token. -/
namespace ShaderTree

/-- Where a terminal is taken in the end, the first action is not an error, and a first reduction
leads to a stack where the terminal is taken with less fuel. -/
theorem Table.simulateWith_cases {t : Table} {k : Kind} {fuel top : Nat} {below : List Nat}
    (taken : (t.simulateWith k fuel (top :: below)).isSome = true) :
    t.action top k ≠ .error ∧ ∀ p, t.action top k = .reduce p → ∃ fuel' after, fuel = fuel' + 1 ∧
      t.reduceStates p (top :: below) = some after ∧
      (t.simulateWith k fuel' after).isSome = true := by
  unfold simulateWith at taken
  split at taken
  · rename_i next action
    exact ⟨by simp [action], fun p is => by simp [action] at is⟩
  · rename_i action
    exact ⟨by simp [action], fun p is => by simp [action] at is⟩
  · cases taken
  · cases taken
  · rename_i p fuel action
    refine ⟨by simp [action], fun q is => ?_⟩
    obtain rfl := Action.reduce.inj (action.symm.trans is)
    split at taken
    · cases taken
    · rename_i r known
      split at taken
      · cases taken
      · rename_i base rest dropped
        split at taken
        · cases taken
        · rename_i next goto
          exact ⟨fuel, _, rfl, reduceStates_eq known dropped goto, taken⟩

namespace Repair

variable {t : Table} {states : List Nat} {lookahead : Kind} {upcoming : List Kind}
  {canInsert : Bool}

theorem canInsert_of_insert {k : Kind}
    (h : choose t states lookahead upcoming canInsert = .insert k) : canInsert = true := by
  cases canInsert with
  | true => rfl
  | false =>
    unfold choose at h
    simp only [Bool.false_and, Bool.false_eq_true, if_false] at h
    repeat' split at h
    all_goals cases h

/-- Entries are given up where the next token is taken below them, and all of them at the end of
input. -/
theorem wrap_cases {d : Nat} (h : choose t states lookahead upcoming canInsert = .wrap (d + 1)) :
    d + 1 < states.length ∧ (t.accepts (states.drop (d + 1)) lookahead = true ∨
      lookahead = .eof ∧ d + 1 = states.length - 1) := by
  unfold choose at h
  dsimp only at h
  split at h
  · cases h
  · split at h
    · cases h
    · cases depth : depth? t states lookahead with
      | some e =>
        rw [depth] at h
        obtain rfl := Repair.wrap.inj h
        have member := List.mem_of_mem_drop (List.mem_of_find?_eq_some depth)
        exact ⟨List.mem_range.1 member, .inl (by simpa using List.find?_some depth)⟩
      | none =>
        rw [depth] at h
        dsimp only at h
        split at h
        · rename_i atEnd
          have all := Repair.wrap.inj h
          exact ⟨by omega, .inr ⟨atEnd, all.symm⟩⟩
        · cases h

/-- What is pretended is a closer that the table takes, and is allowed. -/
theorem insert_cases {k : Kind}
    (h : choose t states lookahead upcoming canInsert = .insert k) :
    k ∈ insertable ∧ t.accepts states k = true := by
  have chosen : closer? t states lookahead = some k := by
    unfold choose at h
    dsimp only at h
    split at h
    · rename_i k' found
      obtain rfl := Repair.insert.inj h
      split at found
      · exact found
      · cases found
    · repeat' split at h
      all_goals cases h
  unfold closer? at chosen
  rcases Option.or_eq_some_iff.1 chosen with first | ⟨_, second⟩
  · have fits := List.find?_some first
    refine ⟨List.mem_of_find?_eq_some first, ?_⟩
    obtain ⟨after, taken, _⟩ := (Option.any_eq_true _ _).1 fits
    rw [Table.accepts, taken, Option.isSome_some]
  · split at second
    · exact ⟨List.mem_of_find?_eq_some second, by simpa using List.find?_some second⟩
    · cases second

end Repair

/-- Old nodes to take over have leaves. -/
def Reuse.HasLeaves (r : Reuse) : Prop := ∀ n ∈ r.nodes, n.2.leaves ≠ []

namespace Setup

open Config

/-- What the end of a parse rests on: reductions on one terminal end, on an empty stack the end of
input is refused at once or taken, and what is taken over has text. -/
structure Halting (s : Setup) (g : Grammar) : Prop where
  built : s.table.BuiltFrom g
  halts : ∀ {path : List Symbol} {states : List Nat} (k : Kind), g.Spells path states →
    s.table.Halts k states
  atEnd : s.table.action 0 .eof = .error ∨ s.table.accepts [0] .eof = true
  leaves : ∀ r, s.reuse = some r → r.HasLeaves

variable {g : Grammar} {s : Setup} {c c' : Config} {n m : Nat}

/-- From a state of the parse no moves go on for ever. -/
def Finishes (s : Setup) (c : Config) : Prop := Acc (fun after before => Move s before after) c

theorem lookahead_settle_eq (rest : c'.rest = c.settle.rest) :
    c'.settle.lookahead = c.settle.lookahead := by
  have same : c'.settle.rest = c.settle.rest := by
    change c'.rest.dropWhile _ = c.rest.dropWhile _
    rw [rest]
    exact List.dropWhile_idempotent _ _
  rw [lookahead, lookahead, same]

theorem reduce_frame {p : Nat} {k : Kind} (h : s.reduce c p k = .ok c') :
    c'.rest = c.rest ∧ c'.inserting = c.inserting ∧ c'.inserted = c.inserted := by
  obtain ⟨r, trailing, popped, below, next, _, _, _, _, rfl⟩ := reduce_ok h
  exact ⟨rfl, rfl, rfl⟩

theorem inserting_pushSkipped (u : Token) : (pushSkipped c u).1.inserting = c.inserting := by
  unfold pushSkipped
  split
  · rfl
  · rw [flush_eq]

/-- The next token was taken, alone or with tokens behind it. -/
def Consumes (before after : Config) : Prop :=
  ∃ u us, before.settle.rest = u :: us ∧ after.rest <:+ us

theorem Consumes.lt (consumes : Consumes c c') : c'.settle.rest.length < c.settle.rest.length := by
  obtain ⟨u, us, front, suffix⟩ := consumes
  rw [front]
  exact Nat.lt_succ_of_le ((rest_suffix_settle c').trans suffix).length_le

theorem Consumes.shorter (consumes : Consumes c c') : c'.rest.length < c.rest.length := by
  obtain ⟨u, us, front, suffix⟩ := consumes
  have settled := (rest_suffix_settle c).length_le
  rw [front] at settled
  exact Nat.lt_of_le_of_lt suffix.length_le settled

theorem consumes_of_takeOver (leaves : ∀ r, s.reuse = some r → r.HasLeaves) {r : Reuse}
    {found : Reusable} (reuse : s.reuse = some r)
    (finds : r.find? (s.gotoKind c.top) c.top c.settle.rest = .ok (some found)) :
    Consumes c (Setup.takeOver c.settle found) := by
  obtain ⟨record, fits⟩ := Reuse.find?_some finds
  obtain ⟨start, known⟩ := fits.known
  have some : 0 < found.count := by
    rw [fits.count]
    exact List.length_pos_iff.2 (leaves r reuse _ known)
  cases front : c.settle.rest with
  | nil =>
    rw [front] at finds
    cases finds
  | cons u us =>
    refine ⟨u, us, front, ?_⟩
    obtain ⟨m, more⟩ : ∃ m, found.count = m + 1 := ⟨found.count - 1, by omega⟩
    simp only [Setup.takeOver, rest_flush, front, more, List.drop_succ_cons]
    exact List.drop_suffix m us

theorem consumes_of_skip (skipped : s.skip c.settle = .ok c') : Consumes c c' := by
  obtain ⟨u, rest, front, rfl⟩ := skip_ok skipped
  exact ⟨u, rest, front, List.suffix_refl _⟩

/-- Every move leads from a path to a path. -/
theorem Move.spelled_of_built (built : s.table.BuiltFrom g) (spelled : c.Spelled g)
    (move : Move s c c') : c'.Spelled g := by
  have settled := spelled.settle
  cases move with
  | insertReduce _ action reduced => exact (spelled_reduce built rfl spelled action reduced).2
  | insertShift _ action => exact spelled_insertShift built spelled action
  | insertStop => exact ⟨spelled.path, spelled.repeats⟩
  | reduce _ _ action reduced => exact (spelled_reduce built rfl settled action reduced).2
  | shift _ _ action shifted => exact spelled_shift built settled action shifted
  | takeOver _ _ _ _ finds =>
    obtain ⟨record, fits⟩ := Reuse.find?_some finds
    exact spelled_takeOver built rfl settled fits.next
  | insert => exact ⟨spelled.path, spelled.repeats⟩
  | wrap _ _ _ repair => exact (spelled_wrap _ settled (Repair.wrap_cases repair).1).1
  | skip _ _ _ _ _ skipped => exact spelled_skip settled skipped

/-- What a move does where no token is being pretended: a reduction, a token less in the input, or a
repair that takes none. -/
inductive Reading (s : Setup) (g : Grammar) (c c' : Config) : Prop
  | reduce {p : Nat} (action : s.table.action c.top c.settle.lookahead = .reduce p)
      (reduced : s.table.reduceStates p c.states = some c'.states) (rest : c'.rest = c.settle.rest)
      (inserting : c'.inserting = none) (inserted : c'.inserted = c.inserted)
      (spelled : c'.Spelled g)
  | consume (inside : c.settle.lookahead ≠ .eof) (shorter : c'.rest.length < c.rest.length)
      (inserting : c'.inserting = none) (spelled : c'.Spelled g)
  | insert {k : Kind} (action : s.table.action c.top c.settle.lookahead = .error)
      (allowed : c.inserted < s.options.maxInsertions)
      (is : c' = { c.settle with inserting := some k })
  | wrap {d : Nat} (action : s.table.action c.top c.settle.lookahead = .error)
      (repair : s.chooseRepair c.settle c.settle.lookahead = .wrap (d + 1))
      (is : c' = Setup.wrap c.settle (d + 1) c.settle.lookahead)

theorem Move.reading (halting : s.Halting g) (spelled : c.Spelled g)
    (reading : c.inserting = none) (move : Move s c c') : Reading s g c c' := by
  have settled := spelled.settle
  have spelled' := move.spelled_of_built halting.built spelled
  have inside {next : Nat} (action : s.table.action c.top c.settle.lookahead = .shift next) :=
    Grammar.ne_eof_of_leads halting.built.valid (Table.leads_of_shift halting.built action)
  cases move with
  | insertReduce inserting => cases reading.symm.trans inserting
  | insertShift inserting => cases reading.symm.trans inserting
  | insertStop inserting => cases reading.symm.trans inserting
  | reduce _ _ action reduced =>
    obtain ⟨made, _⟩ := spelled_reduce halting.built rfl settled action reduced
    obtain ⟨rest, inserting, inserted⟩ := reduce_frame reduced
    exact .reduce action made rest (inserting.trans reading) inserted spelled'
  | shift _ _ action shifted =>
    obtain ⟨u, rest, front, rfl⟩ := shift_ok shifted
    refine .consume (inside action) (Consumes.shorter ⟨u, rest, front, List.suffix_refl _⟩) ?_ spelled'
    rw [flush_eq]
    exact reading
  | takeOver _ _ action reuse finds =>
    refine .consume (inside action) (consumes_of_takeOver halting.leaves reuse finds).shorter ?_ spelled'
    rw [Setup.takeOver, flush_eq]
    exact reading
  | insert _ _ action repair =>
    exact .insert action (of_decide_eq_true (Repair.canInsert_of_insert repair)) rfl
  | wrap _ _ action repair => exact .wrap action repair rfl
  | skip _ _ _ _ inside skipped =>
    refine .consume inside (consumes_of_skip skipped).shorter ?_ spelled'
    obtain ⟨u, rest, _, rfl⟩ := skip_ok skipped
    exact (inserting_pushSkipped u).trans reading

/-- What is left once a token was consumed ends. -/
def EndsBelow (s : Setup) (g : Grammar) (n : Nat) : Prop :=
  ∀ c : Config, c.Spelled g → c.inserting = none → c.rest.length < n → s.Finishes c

/-- What is left once a token was pretended ends. -/
def EndsWithin (s : Setup) (g : Grammar) (n m : Nat) : Prop :=
  ∀ c : Config, c.Spelled g → c.inserting = none → c.rest.length ≤ n →
    s.options.maxInsertions - c.inserted < m → s.Finishes c

/-- Where the reductions for the next token lead to its shift, the token is consumed. -/
theorem finishes_of_simulate (halting : s.Halting g) (below : s.EndsBelow g n) (fuel : Nat)
    (spelled : c.Spelled g) (reading : c.inserting = none) (bound : c.rest.length ≤ n)
    (taken : (s.table.simulateWith c.settle.lookahead fuel c.states).isSome = true) :
    s.Finishes c := by
  induction fuel using Nat.strong_induction_on generalizing c with
  | _ fuel ih =>
    refine Acc.intro _ fun c' move => ?_
    obtain ⟨under, states⟩ := spelled.states_eq
    rw [states] at taken
    obtain ⟨acts, step⟩ := Table.simulateWith_cases taken
    cases move.reading halting spelled reading with
    | reduce action reduced rest inserting inserted spelled' =>
      obtain ⟨fuel', after, rfl, reduced', taken'⟩ := step _ action
      rw [← states, reduced] at reduced'
      obtain rfl := Option.some.inj reduced'
      refine ih fuel' (Nat.lt_succ_self _) spelled' inserting ?_ ?_
      · rw [rest]
        exact Nat.le_trans (rest_suffix_settle c).length_le bound
      · rw [lookahead_settle_eq rest]
        exact taken'
    | consume inside less inserting spelled' =>
      exact below c' spelled' inserting (Nat.lt_of_lt_of_le less bound)
    | insert action => exact absurd action acts
    | wrap action => exact absurd action acts

theorem finishes_of_accepts (halting : s.Halting g) (below : s.EndsBelow g n)
    (spelled : c.Spelled g) (reading : c.inserting = none) (bound : c.rest.length ≤ n)
    (taken : s.table.accepts c.states c.settle.lookahead = true) : s.Finishes c :=
  finishes_of_simulate halting below (s.table.reductionBound c.states.length) spelled reading bound
    taken

/-- Pretending a token comes to an end. -/
theorem finishes_of_inserting (halting : s.Halting g) (later : s.EndsWithin g n m) {k : Kind}
    (spelled : c.Spelled g) (inserting : c.inserting = some k) (bound : c.rest.length ≤ n)
    (room : s.options.maxInsertions - (c.inserted + 1) < m) : s.Finishes c := by
  obtain ⟨path, spells⟩ := spelled.path
  have chain := halting.halts k spells
  generalize same : c.states = states at chain
  clear path spells
  induction chain generalizing c with
  | intro states _ ih =>
    subst same
    obtain ⟨under, states⟩ := spelled.states_eq
    refine Acc.intro _ fun c' move => ?_
    cases move with
    | insertReduce inserting' action reduced =>
      obtain rfl := Option.some.inj (inserting.symm.trans inserting')
      obtain ⟨made, spelled'⟩ := spelled_reduce halting.built rfl spelled action reduced
      obtain ⟨rest, kept, inserted⟩ := reduce_frame reduced
      exact ih c'.states ⟨c.top, under, _, states, action, states ▸ made⟩ spelled'
        (kept.trans inserting) (rest ▸ bound) (inserted ▸ room) rfl
    | insertShift _ action =>
      exact later _ (spelled_insertShift halting.built spelled action) rfl bound room
    | insertStop => exact later _ ⟨spelled.path, spelled.repeats⟩ rfl bound room
    | reduce reading => cases inserting.symm.trans reading
    | shift reading => cases inserting.symm.trans reading
    | takeOver reading => cases inserting.symm.trans reading
    | insert reading => cases inserting.symm.trans reading
    | wrap reading => cases inserting.symm.trans reading
    | skip reading => cases inserting.symm.trans reading

theorem finishes_of_insert (halting : s.Halting g) (later : s.EndsWithin g n m) {k : Kind}
    (spelled : c.Spelled g) (bound : c.rest.length ≤ n)
    (room : s.options.maxInsertions - c.inserted ≤ m)
    (allowed : c.inserted < s.options.maxInsertions) :
    s.Finishes { c.settle with inserting := some k } := by
  refine finishes_of_inserting halting later (k := k) ⟨spelled.path, spelled.repeats⟩ rfl ?_ ?_
  · exact Nat.le_trans (rest_suffix_settle c).length_le bound
  · change s.options.maxInsertions - (c.inserted + 1) < m
    omega

/-- On an empty stack the end of input is taken, or a token is pretended, or the parse gives up. -/
theorem finishes_of_empty (halting : s.Halting g) (below : s.EndsBelow g n)
    (later : s.EndsWithin g n m) (spelled : c.Spelled g) (reading : c.inserting = none)
    (bound : c.rest.length ≤ n) (room : s.options.maxInsertions - c.inserted ≤ m)
    (states : c.states = [0]) (atEnd : c.settle.lookahead = .eof) : s.Finishes c := by
  obtain ⟨under, whole⟩ := spelled.states_eq
  obtain ⟨top, _⟩ := List.cons.inj (whole.symm.trans states)
  rcases halting.atEnd with refused | taken
  · refine Acc.intro _ fun c' move => ?_
    have action : s.table.action c.top c.settle.lookahead = .error := by rwa [top, atEnd]
    cases move.reading halting spelled reading with
    | reduce action' => cases action.symm.trans action'
    | consume inside => exact absurd atEnd inside
    | insert _ allowed is =>
      subst is
      exact finishes_of_insert halting later spelled bound room allowed
    | wrap _ repair =>
      have inside : _ < c.states.length := (Repair.wrap_cases repair).1
      rw [states, List.length_singleton] at inside
      omega
  · exact finishes_of_accepts halting below spelled reading bound (by rwa [atEnd, states])

/-- With the tokens still to be consumed and pretended every parse ends. -/
theorem finishes_of_reading (halting : s.Halting g) (below : s.EndsBelow g n)
    (later : s.EndsWithin g n m) (spelled : c.Spelled g) (reading : c.inserting = none)
    (bound : c.rest.length ≤ n) (room : s.options.maxInsertions - c.inserted ≤ m) :
    s.Finishes c := by
  obtain ⟨path, spells⟩ := spelled.path
  have chain := halting.halts c.settle.lookahead spells
  generalize same : c.states = states at chain
  generalize ahead : c.settle.lookahead = k at chain
  clear path spells
  induction chain generalizing c with
  | intro states _ ih =>
    subst same
    obtain ⟨under, states⟩ := spelled.states_eq
    refine Acc.intro _ fun c' move => ?_
    have left : c.settle.rest.length ≤ n := Nat.le_trans (rest_suffix_settle c).length_le bound
    cases move.reading halting spelled reading with
    | reduce action reduced rest inserting inserted spelled' =>
      rw [ahead] at action
      exact ih c'.states ⟨c.top, under, _, states, action, states ▸ reduced⟩ spelled' inserting
        (rest ▸ left) (inserted ▸ room) rfl ((lookahead_settle_eq rest).trans ahead)
    | consume inside less inserting spelled' =>
      exact below c' spelled' inserting (Nat.lt_of_lt_of_le less bound)
    | insert _ allowed is =>
      subst is
      exact finishes_of_insert halting later spelled bound room allowed
    | @wrap d _ repair is =>
      subst is
      obtain ⟨inside, leads⟩ := Repair.wrap_cases repair
      obtain ⟨spelled', wrapped⟩ := spelled_wrap c.settle.lookahead spelled.settle inside
      have ahead' : (Setup.wrap c.settle (d + 1) c.settle.lookahead).settle.lookahead =
          c.settle.lookahead := lookahead_settle_eq rfl
      rcases leads with taken | ⟨atEnd, all⟩
      · exact finishes_of_accepts halting below spelled' reading left (by rwa [ahead', wrapped])
      · refine finishes_of_empty halting below later spelled' reading left room ?_
          (ahead'.trans atEnd)
        rw [wrapped, all, Config.states, List.length_append, List.length_singleton]
        exact List.drop_left

/-- A parse comes to an end from any state where no token is being pretended. -/
theorem finishes (halting : s.Halting g) (spelled : c.Spelled g) (reading : c.inserting = none) :
    s.Finishes c := by
  generalize size : c.rest.length = n
  induction n using Nat.strong_induction_on generalizing c with
  | _ n shorter =>
    have below : s.EndsBelow g n := fun c spelled reading less => shorter _ less spelled reading rfl
    suffices all : ∀ m (c : Config), c.Spelled g → c.inserting = none → c.rest.length ≤ n →
        s.options.maxInsertions - c.inserted ≤ m → s.Finishes c from
      all _ c spelled reading (Nat.le_of_eq size) (Nat.le_refl _)
    intro m
    induction m with
    | zero =>
      intro c spelled reading bound room
      exact finishes_of_reading halting below (fun c _ _ _ less => absurd less (Nat.not_lt_zero _))
        spelled reading bound room
    | succ m fewer =>
      intro c spelled reading bound room
      exact finishes_of_reading halting below (fun c spelled reading bound less =>
        fewer c spelled reading bound (Nat.le_of_lt_succ less)) spelled reading bound room

theorem Move.spelled (halting : s.Halting g) (spelled : c.Spelled g) (move : Move s c c') :
    c'.Spelled g :=
  move.spelled_of_built halting.built spelled

end Setup

end ShaderTree
