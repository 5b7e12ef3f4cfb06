import Mathlib.Tactic.GCongr
import Mathlib.Tactic.Ring
import ShaderTree.Proofs.Metal.Acceptance
import ShaderTree.Proofs.Parser.Foresight
import ShaderTree.Proofs.Table.Landing

/-! How long a run can take. Between two moves that read, pretend or give up something a parse makes the
reductions on one terminal, and a chain of reductions that ends does so in time. There are few such moves
for a token, as each makes room for the next one. Only at the end of input can a parse give up its whole
stack for nothing, and if it comes to do so again, with nothing pretended in between, it does so for ever.
So a parse with a table that passed the check ends within the steps it has, or has no end. -/
namespace ShaderTree

open Relation (ReflTransGen)

namespace Setup

open Config

variable {s : Setup} {c c' c'' : Config} {n m r v : Nat} {states after : List Nat} {tokens : List Token}

/-- A run ends, in a document or a fault, with its `n`th step or earlier. -/
def EndsBy (s : Setup) : Nat → Config → Prop
  | 0, _ => False
  | n + 1, c => ∀ c', s.step c = .ok (.next c') → EndsBy s n c'

theorem endsBy_of_run (ran : s.run n c ≠ .error .outOfFuel) : s.EndsBy n c := by
  induction n generalizing c with
  | zero => exact ran rfl
  | succ n ih =>
    intro c' step
    rw [run, step] at ran
    exact ih ran

theorem EndsBy.mono (ends : s.EndsBy n c) (le : n ≤ m) : s.EndsBy m c := by
  induction n generalizing c m with
  | zero => exact ends.elim
  | succ n ih =>
    obtain ⟨m, rfl⟩ := Nat.exists_eq_add_of_lt (Nat.lt_of_succ_le le)
    exact fun c' step => ih (ends c' step) (by omega)

theorem EndsBy.run_eq (ends : s.EndsBy n c) (le : n ≤ m) : s.run m c = s.run n c := by
  induction n generalizing c m with
  | zero => exact ends.elim
  | succ n ih =>
    obtain ⟨m, rfl⟩ : ∃ k, m = k + 1 := ⟨m - 1, by omega⟩
    rw [run, run]
    cases step : s.step c with
    | error f => rfl
    | ok y =>
      cases y with
      | next c' => exact ih (ends c' step) (Nat.le_of_succ_le_succ le)
      | accepted c' => rfl
      | gaveUp c' => rfl

/-! Reductions on the next terminal -/

/-- What reductions leave as it is. -/
structure Along (s : Setup) (c c' : Config) : Prop where
  footed : c'.Footed s.table
  inserting : c'.inserting = c.inserting
  inserted : c'.inserted = c.inserted
  rest : c'.settle.rest = c.settle.rest

theorem Along.lookahead (along : s.Along c c') : c'.settle.lookahead = c.settle.lookahead := by
  rw [Config.lookahead, Config.lookahead, along.rest]

theorem Along.terminal (along : s.Along c c') : c'.terminal = c.terminal := by
  rw [Config.terminal, Config.terminal, along.inserting, along.lookahead]

theorem Along.trans (along : s.Along c c') (along' : s.Along c' c'') : s.Along c c'' :=
  ⟨along'.footed, along'.inserting.trans along.inserting, along'.inserted.trans along.inserted,
    along'.rest.trans along.rest⟩

/-- The reductions on the next terminal have been made. -/
structure Drained (s : Setup) (c c' : Config) : Prop extends Along s c c' where
  chain : s.table.ReducesTo c.terminal c.states c'.states
  settled : s.table.Settles c.terminal 0 c'.states

theorem Drained.stop (formed : s.table.WellFormed) (drained : s.Drained c c') (p : Nat) :
    s.table.action c'.top c'.terminal ≠ .reduce p := by
  rw [drained.terminal]
  exact ((firm_of_formed formed).settled_iff drained.footed).1 drained.settled p

theorem terminal_of_reading (reading : c.inserting = none) : c.terminal = c.settle.lookahead := by
  rw [terminal, reading, Option.getD_none]

theorem terminal_of_inserting {k : Kind} (inserting : c.inserting = some k) : c.terminal = k := by
  rw [terminal, inserting, Option.getD_some]

theorem exists_step_of_reduces (formed : s.table.WellFormed) (footed : c.Footed s.table)
    (reduces : s.table.Reduces c.terminal after c.states) :
    ∃ c', s.step c = .ok (.next c') ∧ c'.states = after ∧ s.Along c c' := by
  have firm := firm_of_formed formed
  cases inserting : c.inserting with
  | some k =>
    rw [terminal_of_inserting inserting] at reduces
    obtain ⟨c', ⟨p, action, reduced⟩, footed', states⟩ := firm.exists_step footed reduces
    obtain ⟨rest, kept, inserted⟩ := reduce_frame reduced
    have step : s.step c = .ok (.next c') := by
      simp only [Setup.step, inserting, insertStep, action, reduced]
      rfl
    exact ⟨c', step, states, footed', kept, inserted, by simp only [settle, rest]⟩
  | none =>
    rw [terminal_of_reading inserting] at reduces
    obtain ⟨c', ⟨p, action, reduced⟩, footed', states⟩ := firm.exists_step footed.settle reduces
    obtain ⟨rest, kept, inserted⟩ := reduce_frame reduced
    have terminal := formed.isTerminal_of_action action (by simp)
    exact ⟨c', step_reduce inserting terminal action reduced, states, footed', kept, inserted,
      by rw [settle_eq_of_rest rest, rest]⟩

/-- A run that ends makes its reductions on the next terminal. -/
theorem EndsBy.exists_settles (formed : s.table.WellFormed) (footed : c.Footed s.table)
    (ends : s.EndsBy n c) : ∃ m < n, s.table.Settles c.terminal m c.states := by
  induction n generalizing c with
  | zero => exact ends.elim
  | succ n ih =>
    by_cases settled : s.table.Settles c.terminal 0 c.states
    · exact ⟨0, Nat.succ_pos n, settled⟩
    · obtain ⟨after, reduces⟩ := not_forall_not.1 settled
      obtain ⟨c', step, rfl, along⟩ := exists_step_of_reduces formed footed reduces
      obtain ⟨m, less, settles⟩ := ih along.footed (ends c' step)
      exact ⟨m + 1, Nat.succ_lt_succ less, _, reduces, along.terminal ▸ settles⟩

/-- Where the reductions on the next terminal lead. -/
theorem exists_drained (formed : s.table.WellFormed) (footed : c.Footed s.table)
    (settles : s.table.Settles c.terminal m c.states) :
    ∃ c', s.Drained c c' ∧ ∀ n, s.EndsBy (m + n) c ↔ s.EndsBy n c' := by
  induction m generalizing c with
  | zero => exact ⟨c, ⟨⟨footed, rfl, rfl, rfl⟩, .refl, settles⟩, fun n => by rw [Nat.zero_add]⟩
  | succ m ih =>
    obtain ⟨after, reduces, later⟩ := settles
    obtain ⟨c1, step, rfl, along⟩ := exists_step_of_reduces formed footed reduces
    rw [← along.terminal] at later
    obtain ⟨c', ⟨along', chain, settled⟩, same⟩ := ih along.footed later
    rw [along.terminal] at chain settled
    refine ⟨c', ⟨along.trans along', .head reduces chain, settled⟩, fun n => ?_⟩
    rw [Nat.add_right_comm, ← same]
    constructor
    · exact fun ends => ends c1 step
    · intro ends c2 step'
      obtain rfl := Step.next.inj (Except.ok.inj (step.symm.trans step'))
      exact ends

/-! The whole stack given up -/

theorem drop_states (c : Config) : c.states.drop (c.states.length - 1) = [0] := by
  simp [states]

theorem rest_settle_of_rest (rest : c'.rest = c.settle.rest) : c'.settle.rest = c.settle.rest := by
  rw [settle_eq_of_rest rest, rest]

theorem upcoming_eq (rest : c'.rest = c.rest) (window : Nat) : c'.upcoming window = c.upcoming window := by
  simp only [upcoming, rest]

/-- Nothing is left on the stack at the end of input. -/
structure Bare (s : Setup) (upcoming : List Kind) (inserted : Nat) (c : Config) : Prop where
  footed : c.Footed s.table
  reading : c.inserting = none
  states : c.states = [0]
  atEnd : c.settle.lookahead = .eof
  upcoming : c.settle.upcoming s.options.skipWindow = upcoming
  inserted : c.inserted = inserted

theorem step_wrap_atEnd {d : Nat} (reading : c.inserting = none) (atEnd : c.settle.lookahead = .eof)
    (refused : s.table.action c.top .eof = .error) (repair : s.chooseRepair c.settle .eof = .wrap (d + 1)) :
    s.step c = .ok (.next (wrap c.settle (d + 1) .eof)) := by
  rw [step_recover reading (by rw [atEnd]; decide) (by rw [atEnd]; exact refused), atEnd]
  simp [recover, repair, asksForNode]

theorem states_wrap {d : Nat} {k : Kind} (inside : d < c.states.length) :
    (wrap c d k).states = c.states.drop d :=
  statesOf_pop inside

theorem footed_wrap {d : Nat} {k : Kind} (footed : c.Footed s.table) (inside : d < c.states.length) :
    (wrap c d k).Footed s.table :=
  ⟨states_wrap (k := k) inside ▸ footed.trail.drop inside, fun _ => rfl,
    footed.repeats.of_suffix (pop_suffix _ _)⟩

/-- Where the reductions on the end of input come to be given up again, this goes on for ever. -/
theorem Bare.not_endsBy (formed : s.table.WellFormed) {upcoming : List Kind} {top d : Nat} {below : List Nat}
    (chain : s.table.ReducesTo .eof [0] (top :: below)) (settled : s.table.Settles .eof 0 (top :: below))
    (refused : s.table.action top .eof = .error)
    (repair : Repair.choose s.table (top :: below) .eof upcoming (m < s.options.maxInsertions) = .wrap (d + 1))
    (all : (top :: below).drop (d + 1) = [0]) (bare : s.Bare upcoming m c) : ¬ s.EndsBy n c := by
  induction n using Nat.strong_induction_on generalizing c with
  | _ n ih =>
    intro ends
    have terminal : c.terminal = .eof := (terminal_of_reading bare.reading).trans bare.atEnd
    obtain ⟨j, less, settles⟩ := ends.exists_settles formed bare.footed
    obtain ⟨c', ⟨along, chain', settled'⟩, same⟩ := exists_drained formed bare.footed settles
    obtain ⟨k, rfl⟩ := Nat.exists_eq_add_of_lt less
    rw [terminal] at chain' settled'
    rw [bare.states] at chain'
    have states : c'.settle.states = top :: below := Table.ReducesTo.unique chain' settled' chain settled
    obtain ⟨_, first⟩ := along.footed.exists_states
    obtain ⟨rfl, _⟩ := List.cons.inj (first.symm.trans states)
    have upcoming' := (upcoming_eq along.rest _).trans bare.upcoming
    have repair' : s.chooseRepair c'.settle .eof = .wrap (d + 1) := by
      rw [← repair, ← states, ← upcoming', ← bare.inserted, ← along.inserted]
      rfl
    have inside := (Repair.wrap_cases repair').1
    have reading := along.inserting.trans bare.reading
    have atEnd := along.lookahead.trans bare.atEnd
    have settle : (wrap c'.settle (d + 1) .eof).settle.rest = c'.settle.rest := List.dropWhile_idempotent _ _
    refine ih k (by omega) ⟨footed_wrap along.footed.settle inside, reading, ?_, ?_, ?_,
      along.inserted.trans bare.inserted⟩
      ((same (k + 1)).1 (by rwa [← Nat.add_assoc]) _ (step_wrap_atEnd reading atEnd refused repair'))
    · rw [states_wrap inside, states, all]
    · rw [lookahead, settle]
      exact atEnd
    · rw [upcoming_eq settle, upcoming']

/-! Between two chains -/

/-- What a chain of reductions can lead to: behind a repair that makes the table take the next token nothing
but this token, and where nothing is left of the stack not the same again. -/
inductive Rank (s : Setup) (c : Config) : Nat → Prop
  | pretending {k : Kind} (inserting : c.inserting = some k)
      (room : c.inserted < s.options.maxInsertions) : Rank s c 1
  | taking (reading : c.inserting = none)
      (takes : s.table.accepts c.states c.settle.lookahead = true) : Rank s c 1
  | bare (reading : c.inserting = none) (states : c.states = [0])
      (atEnd : c.settle.lookahead = .eof) : Rank s c 2
  | reading (reading : c.inserting = none) : Rank s c 3

/-- How many chains of reductions can follow at most. -/
def chainsLeft (s : Setup) (c : Config) (rank : Nat) : Nat :=
  3 * (c.settle.rest.length * (s.options.maxInsertions + 1) + (s.options.maxInsertions - c.inserted)) + rank

theorem Rank.pos (rank : s.Rank c r) : 0 < r := by
  cases rank <;> decide

theorem Along.chainsLeft_eq (along : s.Along c c') (r : Nat) : s.chainsLeft c' r = s.chainsLeft c r := by
  rw [chainsLeft, chainsLeft, along.rest, along.inserted]

theorem chainsLeft_of_consumes (consumes : Consumes c c') (pos : 0 < r) :
    s.chainsLeft c' 3 < s.chainsLeft c r := by
  have less : c'.settle.rest.length * (s.options.maxInsertions + 1) + (s.options.maxInsertions + 1) ≤
      c.settle.rest.length * (s.options.maxInsertions + 1) := by
    rw [← Nat.succ_mul]
    exact Nat.mul_le_mul_right _ consumes.lt
  simp only [chainsLeft]
  omega

theorem chainsLeft_of_pretended (room : c.inserted < s.options.maxInsertions)
    (rest : c'.settle.rest = c.settle.rest) (inserted : c'.inserted = c.inserted + 1) (pos : 0 < r) :
    s.chainsLeft c' 3 < s.chainsLeft c r := by
  simp only [chainsLeft, rest, inserted]
  omega

theorem chainsLeft_of_rank (rest : c'.settle.rest = c.settle.rest) (inserted : c'.inserted = c.inserted)
    {r' : Nat} (less : r' < r) : s.chainsLeft c' r' < s.chainsLeft c r := by
  simp only [chainsLeft, rest, inserted]
  omega

/-- A terminal that is taken is not refused behind the reductions on it. -/
theorem not_refused_of_accepts (formed : s.table.WellFormed) {k : Kind} {top : Nat} {below : List Nat}
    (takes : s.table.accepts states k = true) (chain : s.table.ReducesTo k states (top :: below))
    (settled : s.table.Settles k 0 (top :: below)) : s.table.action top k ≠ .error := by
  intro refused
  rw [Table.accepts, Table.simulate_of_reducesTo formed chain settled, Table.simulateWith_error refused] at takes
  cases takes

/-- A repair follows only where the parser reads and is not sure to take the next token. -/
theorem Rank.two_le (formed : s.table.WellFormed) (rank : s.Rank c r) (drained : s.Drained c c')
    (reading : c'.inserting = none) (refused : s.table.action c'.top c'.settle.lookahead = .error) :
    2 ≤ r := by
  obtain ⟨along, chain, settled⟩ := drained
  cases rank with
  | pretending inserting => exact nomatch reading.symm.trans (along.inserting.trans inserting)
  | taking reading' takes =>
    obtain ⟨below, states⟩ := along.footed.exists_states
    rw [terminal_of_reading reading', states] at chain settled
    rw [along.lookahead] at refused
    exact absurd refused (not_refused_of_accepts formed takes chain settled)
  | bare => exact Nat.le_refl 2
  | reading => exact Nat.le_succ 2

theorem Rank.room (rank : s.Rank c r) {k : Kind} (inserting : c.inserting = some k) :
    c.inserted < s.options.maxInsertions := by
  cases rank with
  | pretending _ room => exact room
  | taking reading => exact nomatch reading.symm.trans inserting
  | bare reading => exact nomatch reading.symm.trans inserting
  | reading reading => exact nomatch reading.symm.trans inserting

/-- In a run that ends the whole stack is not given up twice for nothing. -/
theorem Rank.three_le (formed : s.table.WellFormed) (footed : c.Footed s.table) (rank : s.Rank c r)
    (drained : s.Drained c c') (ends : s.EndsBy n c) (reading : c'.inserting = none)
    (refused : s.table.action c'.top c'.settle.lookahead = .error) {d : Nat}
    (repair : s.chooseRepair c'.settle c'.settle.lookahead = .wrap (d + 1))
    (all : d + 1 = c'.states.length - 1) : 3 ≤ r := by
  have two := rank.two_le formed drained reading refused
  obtain ⟨along, chain, settled⟩ := drained
  cases rank with
  | pretending => exact absurd two (by decide)
  | taking => exact absurd two (by decide)
  | reading => exact Nat.le_refl 3
  | bare reading' bare atEnd =>
    obtain ⟨below, states⟩ := along.footed.exists_states
    have drop := drop_states c'
    rw [terminal_of_reading reading', atEnd] at chain settled
    rw [along.lookahead, atEnd] at refused repair
    rw [← all, states] at drop
    rw [bare, states] at chain
    rw [states] at settled
    have choice : Repair.choose s.table (c'.top :: below) .eof
        (c.settle.upcoming s.options.skipWindow) (c.inserted < s.options.maxInsertions) = .wrap (d + 1) := by
      rw [← repair, ← states, ← upcoming_eq along.rest, ← along.inserted]
      rfl
    exact absurd ends (Bare.not_endsBy formed chain settled refused choice drop
      ⟨footed, reading', bare, atEnd, rfl, rfl⟩)

/-- A move that is no reduction leaves fewer chains to follow. -/
theorem Move.exists_rank (formed : s.table.WellFormed) (leaves : ∀ r, s.reuse = some r → r.HasLeaves)
    (footed : c.Footed s.table) (rank : s.Rank c r) (drained : s.Drained c c') (ends : s.EndsBy n c)
    (move : Move s c' c'') : ∃ r', s.Rank c'' r' ∧ s.chainsLeft c'' r' < s.chainsLeft c r := by
  have stop := drained.stop formed
  have two := rank.two_le formed drained
  rw [← drained.chainsLeft_eq]
  have pretended {c'' : Config} {k : Kind} (inserting : c'.inserting = some k) (reading : c''.inserting = none)
      (rest : c''.settle.rest = c'.settle.rest) (inserted : c''.inserted = c'.inserted + 1) :
      ∃ r', s.Rank c'' r' ∧ s.chainsLeft c'' r' < s.chainsLeft c' r :=
    ⟨3, .reading reading, chainsLeft_of_pretended
      (drained.inserted ▸ rank.room (drained.inserting.symm.trans inserting)) rest inserted rank.pos⟩
  cases move with
  | insertReduce inserting action =>
    rw [terminal_of_inserting inserting] at stop
    exact absurd action (stop _)
  | insertShift inserting => exact pretended inserting rfl rfl rfl
  | insertStop inserting => exact pretended inserting rfl rfl rfl
  | reduce reading _ action =>
    rw [terminal_of_reading reading] at stop
    exact absurd action (stop _)
  | shift reading _ _ shifted =>
    obtain ⟨u, rest, front, rfl⟩ := shift_ok shifted
    exact ⟨3, .reading (by rw [flush_eq]; exact reading),
      chainsLeft_of_consumes ⟨u, rest, front, List.suffix_refl _⟩ rank.pos⟩
  | takeOver reading _ _ reuse finds =>
    exact ⟨3, .reading (by rw [Setup.takeOver, flush_eq]; exact reading),
      chainsLeft_of_consumes (consumes_of_takeOver leaves reuse finds) rank.pos⟩
  | insert reading _ action repair =>
    have room : c'.inserted < s.options.maxInsertions :=
      of_decide_eq_true (Repair.canInsert_of_insert repair)
    exact ⟨1, .pretending rfl room, chainsLeft_of_rank (rest_settle_of_rest rfl) rfl (two reading action)⟩
  | @wrap d reading _ action repair =>
    have rest : (Setup.wrap c'.settle (d + 1) c'.settle.lookahead).rest = c'.settle.rest := rfl
    obtain ⟨inside, accepts | ⟨atEnd, all⟩⟩ := Repair.wrap_cases repair
    · refine ⟨1, .taking reading ?_, chainsLeft_of_rank (rest_settle_of_rest rest) rfl (two reading action)⟩
      rwa [states_wrap inside, lookahead_settle_eq rest]
    · refine ⟨2, .bare reading ?_ ((lookahead_settle_eq rest).trans atEnd),
        chainsLeft_of_rank (rest_settle_of_rest rest) rfl
          (rank.three_le formed footed drained ends reading action repair all)⟩
      rw [states_wrap inside, all]
      exact drop_states c'
  | skip reading _ _ _ _ skipped =>
    refine ⟨3, .reading ?_, chainsLeft_of_consumes (consumes_of_skip skipped) rank.pos⟩
    obtain ⟨u, rest, _, rfl⟩ := skip_ok skipped
    exact (inserting_pushSkipped u).trans reading

/-- A move that is no reduction puts one symbol on the stack at most. -/
theorem Move.length_states_le (repeats : Repeats c.stack)
    (stop : ∀ p, s.table.action c.top c.terminal ≠ .reduce p) (move : Move s c c') :
    c'.states.length ≤ c.states.length + 1 := by
  have pushed (e : Entry) (role : e.isSymbol = true) :
      (statesOf (e :: c.settle.flush.stack)).length ≤ c.states.length + 1 := by
    rw [statesOf_symbol role, List.length_cons]
    exact Nat.le_of_eq (congrArg (·.length + 1) (states_flush c.settle))
  cases move with
  | insertReduce inserting action =>
    rw [terminal_of_inserting inserting] at stop
    exact absurd action (stop _)
  | insertShift => exact Nat.le_of_eq (congrArg List.length (statesOf_symbol rfl))
  | insertStop => exact Nat.le_succ _
  | reduce reading _ action =>
    rw [terminal_of_reading reading] at stop
    exact absurd action (stop _)
  | shift _ _ _ shifted =>
    obtain ⟨u, rest, _, rfl⟩ := shift_ok shifted
    exact pushed _ rfl
  | takeOver => exact pushed _ rfl
  | insert => exact Nat.le_succ _
  | wrap _ _ _ repair =>
    rw [states_wrap (Repair.wrap_cases repair).1, List.length_drop]
    exact Nat.le_succ_of_le (Nat.sub_le _ _)
  | skip _ _ _ _ _ skipped =>
    rw [(states_skip (c := c.settle) repeats skipped).1]
    exact Nat.le_succ _

/-! How many steps that makes -/

/-- How many steps so many chains take, from a stack of so many states. -/
def stepsOf (t : Table) (chains depth : Nat) : Nat :=
  chains * ((depth + chains * (t.stateCount + 1) + 1) * (t.nonterminalCount + 1) ^ t.stateCount + 1)

theorem stepsOf_succ (t : Table) (v depth : Nat) :
    (depth + 1) * (t.nonterminalCount + 1) ^ t.stateCount + (stepsOf t v (depth + t.stateCount + 1) + 1) ≤
      stepsOf t (v + 1) depth := by
  have sum : depth + t.stateCount + 1 + v * (t.stateCount + 1) = depth + (v + 1) * (t.stateCount + 1) := by ring
  have less : (depth + 1) * (t.nonterminalCount + 1) ^ t.stateCount ≤
      (depth + (v + 1) * (t.stateCount + 1) + 1) * (t.nonterminalCount + 1) ^ t.stateCount :=
    Nat.mul_le_mul_right _ (Nat.succ_le_succ (Nat.le_add_right _ _))
  have last := Nat.add_one_mul v ((depth + (v + 1) * (t.stateCount + 1) + 1) *
    (t.nonterminalCount + 1) ^ t.stateCount + 1)
  rw [stepsOf, stepsOf, sum, last]
  omega

theorem stepsOf_mono {t : Table} {depth depth' : Nat} (le : depth ≤ depth') (v : Nat) :
    stepsOf t v depth ≤ stepsOf t v depth' := by
  unfold stepsOf
  gcongr

/-- A run that ends does so within the steps of the chains that can follow. -/
theorem EndsBy.within (formed : s.table.WellFormed) (leaves : ∀ r, s.reuse = some r → r.HasLeaves)
    (footed : c.Footed s.table) (rank : s.Rank c r) (few : s.chainsLeft c r ≤ v) (ends : s.EndsBy n c) :
    s.EndsBy (stepsOf s.table v c.states.length) c := by
  induction v generalizing c r n with
  | zero => exact absurd (Nat.le_trans (Nat.le_add_left _ _) few) (Nat.not_le.2 rank.pos)
  | succ v ih =>
    obtain ⟨m, less, settles⟩ := ends.exists_settles formed footed
    obtain ⟨c', drained, same⟩ := exists_drained formed footed settles
    obtain ⟨k, rfl⟩ := Nat.exists_eq_add_of_lt less
    have ends' : s.EndsBy (k + 1) c' := (same _).1 (by rwa [← Nat.add_assoc])
    have filled : c.states ≠ [] := by simp [states]
    have grown := settles.length_le formed filled drained.chain
    have short := settles.le_growth formed
    have later : s.EndsBy (stepsOf s.table v (c.states.length + s.table.stateCount + 1) + 1) c' := by
      intro c'' step
      rcases step_cases step with ⟨_, is, move⟩ | ⟨_, is | is, _⟩
      · obtain rfl := Step.next.inj is
        obtain ⟨r', rank', fewer⟩ := move.exists_rank formed leaves footed rank drained ends
        have longer := move.length_states_le drained.footed.repeats (drained.stop formed)
        exact (ih (move.footed formed drained.footed) rank' (by omega) (ends' _ step)).mono
          (stepsOf_mono (by omega) v)
      · cases is
      · cases is
    exact ((same _).2 later).mono (Nat.le_trans (Nat.add_le_add_right short _) (stepsOf_succ _ _ _))

theorem stepsOf_le_stepBound (formed : s.table.WellFormed) (tokens : Nat) :
    stepsOf s.table (3 * ((tokens + 1) * (s.options.maxInsertions + 1))) 1 ≤ s.stepBound tokens := by
  have start := formed.start
  unfold stepsOf stepBound Table.reductionBound
  dsimp only
  generalize s.table.stateCount = n at start
  generalize s.table.nonterminalCount = m
  generalize s.options.maxInsertions = i
  have power : 4 * (m + 1) ^ n ≤ Nat.pow (m + 2) (n + 2) :=
    calc 4 * (m + 1) ^ n ≤ (m + 2) ^ 2 * (m + 2) ^ n :=
          Nat.mul_le_mul (Nat.pow_le_pow_left (Nat.le_add_left 2 m) 2) (Nat.pow_le_pow_left (Nat.le_succ _) n)
      _ = (m + 2) ^ (n + 2) := by rw [← Nat.pow_add, Nat.add_comm 2 n]
  have positive : 1 ≤ (m + 1) ^ n := Nat.one_le_pow _ _ (Nat.succ_pos m)
  have fewer : (tokens + 1) * (i + 1) ≤ (tokens + 1) * (i + 2) := Nat.mul_le_mul_left _ (Nat.le_succ _)
  generalize (tokens + 1) * (i + 1) = x at fewer ⊢
  generalize (tokens + 1) * (i + 2) = y at fewer ⊢
  have chains : 3 * x ≤ y * (n + 2) :=
    calc 3 * x ≤ (n + 2) * y := Nat.mul_le_mul (by omega) fewer
      _ = y * (n + 2) := Nat.mul_comm _ _
  have states : 3 * x * (n + 1) + 3 ≤ 4 * (y * (n + 2) + 1) := by
    have less : x * (n + 1) ≤ y * (n + 2) := Nat.mul_le_mul fewer (Nat.le_succ _)
    rw [Nat.mul_assoc]
    omega
  calc 3 * x * ((1 + 3 * x * (n + 1) + 1) * (m + 1) ^ n + 1)
      ≤ y * (n + 2) * ((3 * x * (n + 1) + 3) * (m + 1) ^ n) := by
        refine Nat.mul_le_mul chains ?_
        have last : (3 * x * (n + 1) + 3) * (m + 1) ^ n = (3 * x * (n + 1) + 2) * (m + 1) ^ n + (m + 1) ^ n :=
          Nat.add_one_mul _ _
        have same : 1 + 3 * x * (n + 1) + 1 = 3 * x * (n + 1) + 2 := by omega
        rw [same]
        omega
    _ ≤ y * (n + 2) * ((y * (n + 2) + 1) * (4 * (m + 1) ^ n)) := by
        refine Nat.mul_le_mul_left _ ?_
        calc (3 * x * (n + 1) + 3) * (m + 1) ^ n ≤ 4 * (y * (n + 2) + 1) * (m + 1) ^ n :=
              Nat.mul_le_mul_right _ states
          _ = _ := by ring
    _ ≤ _ := Nat.mul_le_mul_left _ (Nat.mul_le_mul_left _ power)

/-- The steps that a run has are enough, if any number is. -/
theorem run_stepBound (formed : s.table.WellFormed) (leaves : ∀ r, s.reuse = some r → r.HasLeaves)
    (ended : s.run n (.initial tokens) ≠ .error .outOfFuel) :
    s.run (s.stepBound tokens.length) (.initial tokens) = s.run n (.initial tokens) := by
  have ends := endsBy_of_run ended
  have few : s.chainsLeft (.initial tokens) 3 ≤ 3 * ((tokens.length + 1) * (s.options.maxInsertions + 1)) := by
    have front : (initial tokens).settle.rest.length ≤ tokens.length := (rest_suffix_settle _).length_le
    have less := Nat.mul_le_mul_right (s.options.maxInsertions + 1) front
    have last := Nat.add_one_mul tokens.length (s.options.maxInsertions + 1)
    have fresh : (initial tokens).inserted = 0 := rfl
    unfold chainsLeft
    omega
  have within := (ends.within formed leaves (footed_initial tokens) (.reading rfl) few).mono
    (stepsOf_le_stepBound formed tokens.length)
  rcases Nat.le_total n (s.stepBound tokens.length) with le | le
  · exact ends.run_eq le
  · exact (within.run_eq le).symm

/-- A run without endless moves has the steps it needs. -/
theorem exists_run_stepBound {g : Grammar} (formed : s.table.WellFormed) (halting : s.Halting g)
    (readable : s.Readable (.initial tokens)) :
    ∃ last, s.run (s.stepBound tokens.length) (.initial tokens) = .ok last := by
  have spelled := spelled_initial (g := g) tokens
  obtain ⟨fuel, last, ran⟩ := exists_run halting spelled readable (finishes halting spelled rfl)
  have ended : s.run fuel (.initial tokens) ≠ .error .outOfFuel := by
    rw [ran]
    exact nofun
  exact ⟨last, (run_stepBound formed halting.leaves ended).trans ran⟩

end Setup

/-- A parse that runs out of steps has no end. -/
theorem Parser.run_of_outOfFuel {p : Parser} (compatible : p.language.table.checkCompatible = .ok ())
    {text : String} {tokens : List Token} {reuse : Option Reuse}
    (leaves : ∀ r, reuse = some r → r.HasLeaves) (out : p.runOn text tokens reuse = .error .outOfFuel)
    (n : Nat) : (p.setup reuse).run n (.initial tokens) = .error .outOfFuel := by
  by_contra ended
  have same := Setup.run_stepBound (Table.wellFormed_of_compatible compatible) leaves ended
  rw [runOn, same] at out
  cases ran : (p.setup reuse).run n (.initial tokens) with
  | error f =>
    rw [ran] at out ended
    obtain rfl : f = .outOfFuel := Except.error.inj out
    exact ended rfl
  | ok last =>
    rw [ran] at out
    cases out

namespace Metal

/-- The steps of a run suffice for every list of tokens. -/
theorem exists_run {p : Parser} (built : Metal.table = .ok p.language.table) {tokens : List Token}
    {reuse : Option Reuse} (lexical : ∀ u ∈ tokens, u.kind.IsLexical)
    (leaves : ∀ r, reuse = some r → r.HasLeaves) (covers : ∀ r, reuse = some r → r.Covers tokens) :
    ∃ last, (p.setup reuse).run ((p.setup reuse).stepBound tokens.length) (.initial tokens) =
      .ok last :=
  Setup.exists_run_stepBound
    (Table.wellFormed_of_compatible (Table.checkCompatible_of_build built declared))
    (Metal.halting built leaves) ⟨lexical, covers⟩

/-- Metal parses return a document, for every list of tokens. -/
theorem exists_parseTokens {p : Parser} (built : Metal.table = .ok p.language.table)
    {tokens : List Token} (lexical : ∀ u ∈ tokens, u.kind.IsLexical) (text : String) :
    ∃ d, p.parseTokens text tokens = .ok d := by
  have leaves : ∀ r : Reuse, none = some r → r.HasLeaves := fun _ is => nomatch is
  have covers : ∀ r : Reuse, none = some r → r.Covers tokens := fun _ is => nomatch is
  obtain ⟨last, ran⟩ := exists_run built lexical leaves covers
  exact ⟨_, by rw [Parser.parseTokens, Parser.runOn, ran]; rfl⟩

end Metal

end ShaderTree
