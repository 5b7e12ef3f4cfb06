import ShaderTree.Proofs.Parser.Safety
import ShaderTree.Proofs.Table.Settling

/-! What the choice of a repair foresees comes true. The simulation of a terminal follows states alone,
while the parser takes entries off its stack around blanks and given-up text; on every stack of a parse
both come to the same states, and a terminal is refused just where the parser's own reductions come to
an error or to no end. -/
namespace ShaderTree

open Relation (ReflTransGen)

namespace Setup

open Config

variable {g : Grammar} {s : Setup} {c c' last : Config} {tokens : List Token} {k : Kind} {next : Nat}
  {P : Config → Prop} {after result : List Nat}

/-- One of the parser's reductions on a terminal. -/
def ReducesOn (s : Setup) (k : Kind) (before after : Config) : Prop :=
  ∃ p, s.table.action before.top k = .reduce p ∧ s.reduce before p k = .ok after

/-- A symbol was put on the stack. -/
def Pushes (next : Nat) (before after : Config) : Prop :=
  ∃ e : Entry, e.isSymbol = true ∧ e.state = next ∧ after.stack = e :: before.stack

/-- What the parser's reductions on a terminal lead to: the states with the terminal shifted, the states
where it is accepted, or nothing at an error. -/
inductive Ends (s : Setup) (k : Kind) (c : Config) : Option (List Nat) → Prop
  | shift {last pushed : Config} {next : Nat} (chain : ReflTransGen (s.ReducesOn k) c last)
      (action : s.table.action last.top k = .shift next) (pushes : Pushes next last pushed) :
      Ends s k c (some pushed.states)
  | accept {last : Config} (chain : ReflTransGen (s.ReducesOn k) c last)
      (action : s.table.action last.top k = .accept) : Ends s k c (some last.states)
  | error {last : Config} (chain : ReflTransGen (s.ReducesOn k) c last)
      (action : s.table.action last.top k = .error) : Ends s k c none

theorem Pushes.states (pushes : Pushes next c c') : c'.states = next :: c.states := by
  obtain ⟨e, role, rfl, stack⟩ := pushes
  change statesOf c'.stack = _
  rw [stack, statesOf_symbol role]
  rfl

theorem Ends.head (step : s.ReducesOn k c c') {result : Option (List Nat)} (ends : s.Ends k c' result) :
    s.Ends k c result := by
  cases ends with
  | shift chain action pushes => exact .shift (.head step chain) action pushes
  | accept chain action => exact .accept (.head step chain) action
  | error chain action => exact .error (.head step chain) action

theorem Ends.of_chain {result : Option (List Nat)} (ends : s.Ends k last result)
    (chain : ReflTransGen (s.ReducesOn k) c last) : s.Ends k c result := by
  induction chain using ReflTransGen.head_induction_on with
  | refl => exact ends
  | head step _ ih => exact ih.head step

/-! The two machines on the same stacks -/

/-- Configurations on which the reductions that the table asks for can be made, and lead to such. -/
structure Firm (s : Setup) (P : Config → Prop) : Prop where
  top : ∀ {c : Config}, P c → ∃ below, c.states = c.top :: below
  reduces : ∀ {c : Config} {k : Kind} {p : Nat}, P c → s.table.action c.top k = .reduce p →
    ∃ c', s.reduce c p k = .ok c' ∧ s.table.reduceStates p c.states = some c'.states ∧ P c'

theorem firm_of_formed (formed : s.table.WellFormed) : s.Firm (Footed s.table) := by
  refine ⟨fun footed => footed.exists_states, fun footed action => ?_⟩
  obtain ⟨c', reduced, footed', r, base, next, lands⟩ := footed_reduce formed footed action
  obtain ⟨under, dropped⟩ := List.head?_eq_some_iff.1 lands.below
  refine ⟨c', reduced, ?_, footed'⟩
  rw [Table.reduceStates_eq lands.known dropped lands.goto, lands.states, dropped]

theorem firm_of_built (built : s.table.BuiltFrom g) : s.Firm (Spelled g) :=
  ⟨fun spelled => spelled.states_eq, fun spelled action => exists_reduce built rfl spelled action⟩

namespace Firm

variable (firm : s.Firm P)

include firm

theorem step (holds : P c) (step : s.ReducesOn k c c') : P c' ∧ s.table.Reduces k c'.states c.states := by
  obtain ⟨p, action, reduced⟩ := step
  obtain ⟨c'', made, states, holds'⟩ := firm.reduces holds action
  obtain rfl := Except.ok.inj (made.symm.trans reduced)
  obtain ⟨below, top⟩ := firm.top holds
  exact ⟨holds', c.top, below, p, top, action, top ▸ states⟩

theorem chain (holds : P c) (chain : ReflTransGen (s.ReducesOn k) c c') :
    P c' ∧ s.table.ReducesTo k c.states c'.states := by
  induction chain with
  | refl => exact ⟨holds, .refl⟩
  | tail _ step ih =>
    obtain ⟨holds', reduces⟩ := ih
    obtain ⟨holds'', reduces'⟩ := firm.step holds' step
    exact ⟨holds'', reduces.tail reduces'⟩

theorem exists_step (holds : P c) (reduces : s.table.Reduces k after c.states) :
    ∃ c', s.ReducesOn k c c' ∧ P c' ∧ c'.states = after := by
  obtain ⟨top, under, p, states, action, reduced⟩ := reduces
  obtain ⟨below, top_is⟩ := firm.top holds
  obtain ⟨rfl, rfl⟩ := List.cons.inj (top_is.symm.trans states)
  obtain ⟨c', made, states', holds'⟩ := firm.reduces holds action
  exact ⟨c', ⟨p, action, made⟩, holds', Option.some.inj (states'.symm.trans (states ▸ reduced))⟩

theorem exists_chain (holds : P c) (reduces : s.table.ReducesTo k c.states after) :
    ∃ c', ReflTransGen (s.ReducesOn k) c c' ∧ P c' ∧ c'.states = after := by
  induction reduces with
  | refl => exact ⟨c, .refl, holds, rfl⟩
  | tail _ step ih =>
    obtain ⟨c', chain, holds', rfl⟩ := ih
    obtain ⟨c'', step', holds'', states⟩ := firm.exists_step holds' step
    exact ⟨c'', chain.tail step', holds'', states⟩

/-- The plain machine has no reduction left where the table asks for none. -/
theorem settled_iff (holds : P c) :
    s.table.Settles k 0 c.states ↔ ∀ p, s.table.action c.top k ≠ .reduce p := by
  constructor
  · intro settled p action
    obtain ⟨c', reduced, _⟩ := firm.reduces holds action
    exact settled _ (firm.step holds ⟨p, action, reduced⟩).2
  · intro none after reduces
    obtain ⟨c', ⟨p, action, _⟩, _⟩ := firm.exists_step holds reduces
    exact none p action

/-- Where no reduction is next, the simulation is over. -/
theorem ends_of_stop (holds : P c) (stop : ∀ p, s.table.action c.top k ≠ .reduce p) (fuel : Nat) :
    s.Ends k c (s.table.simulateWith k fuel c.states) := by
  obtain ⟨below, states⟩ := firm.top holds
  cases action : s.table.action c.top k with
  | shift next =>
    have pushes : Pushes next c (pushMissing c k next) := ⟨_, rfl, rfl, rfl⟩
    rw [states, Table.simulateWith_shift action, ← states, ← pushes.states]
    exact .shift .refl action pushes
  | accept =>
    rw [states, Table.simulateWith_accept action, ← states]
    exact .accept .refl action
  | error =>
    rw [states, Table.simulateWith_error action]
    exact .error .refl action
  | reduce p => exact absurd action (stop p)

/-- A reduction is the first that the simulation makes. -/
theorem simulateWith_reduced {p fuel : Nat} (holds : P c) (action : s.table.action c.top k = .reduce p)
    (reduced : s.reduce c p k = .ok c') (foreseen : s.table.simulateWith k fuel c.states = some result) :
    ∃ fuel', fuel = fuel' + 1 ∧ s.table.simulateWith k fuel' c'.states = some result := by
  obtain ⟨c'', made, states, _⟩ := firm.reduces holds action
  obtain rfl := Except.ok.inj (made.symm.trans reduced)
  obtain ⟨below, top⟩ := firm.top holds
  cases fuel with
  | zero =>
    rw [top, Table.simulateWith_reduce_zero action] at foreseen
    cases foreseen
  | succ fuel =>
    rw [top, Table.simulateWith_reduce action, ← top, states, Option.bind_some] at foreseen
    exact ⟨fuel, rfl, foreseen⟩

/-- What a simulation foresees comes about, however many reductions it was allowed. -/
theorem ends_of_simulateWith {fuel : Nat} (holds : P c)
    (foreseen : s.table.simulateWith k fuel c.states = some result) : s.Ends k c (some result) := by
  induction fuel using Nat.strong_induction_on generalizing c with
  | _ fuel ih =>
    by_cases stop : ∀ p, s.table.action c.top k ≠ .reduce p
    · exact foreseen ▸ firm.ends_of_stop holds stop fuel
    · obtain ⟨p, action⟩ := not_forall_not.1 stop
      obtain ⟨c', reduced, _, holds'⟩ := firm.reduces holds action
      obtain ⟨fuel', rfl, foreseen'⟩ := firm.simulateWith_reduced holds action reduced foreseen
      exact (ih fuel' (Nat.lt_succ_self _) holds' foreseen').head ⟨p, action, reduced⟩

/-- The simulation has the result that the parser's own reductions lead to. -/
theorem simulate_of_ends (formed : s.table.WellFormed) (holds : P c) {result : Option (List Nat)}
    (ends : s.Ends k c result) : s.table.simulate c.states k = result := by
  have follows {last : Config} (chain : ReflTransGen (s.ReducesOn k) c last)
      (stop : ∀ p, s.table.action last.top k ≠ .reduce p) :
      s.table.simulate c.states k = s.table.simulateWith k 0 last.states ∧
        ∃ below, last.states = last.top :: below := by
    obtain ⟨holds', reduces⟩ := firm.chain holds chain
    exact ⟨Table.simulate_of_reducesTo formed reduces ((firm.settled_iff holds').2 stop),
      firm.top holds'⟩
  cases ends with
  | shift chain action pushes =>
    obtain ⟨same, below, states⟩ := follows chain (by simp [action])
    rw [same, states, Table.simulateWith_shift action, ← states, pushes.states]
  | accept chain action =>
    obtain ⟨same, below, states⟩ := follows chain (by simp [action])
    rw [same, states, Table.simulateWith_accept action]
  | error chain action =>
    obtain ⟨same, below, states⟩ := follows chain (by simp [action])
    rw [same, states, Table.simulateWith_error action]

/-- A terminal is refused where the parser's reductions come to an error, or go on for ever. -/
theorem simulate_eq_none_iff (formed : s.table.WellFormed) (holds : P c) :
    s.table.simulate c.states k = none ↔ s.Ends k c none ∨
      ∀ last, ReflTransGen (s.ReducesOn k) c last → ∃ after, s.ReducesOn k last after := by
  constructor
  · intro refused
    by_cases endless : ∀ last, ReflTransGen (s.ReducesOn k) c last → ∃ after, s.ReducesOn k last after
    · exact .inr endless
    · simp only [not_forall, not_exists] at endless
      obtain ⟨last, chain, stuck⟩ := endless
      obtain ⟨holds', _⟩ := firm.chain holds chain
      have stop (p : Nat) : s.table.action last.top k ≠ .reduce p := by
        intro action
        obtain ⟨after, reduced, _⟩ := firm.reduces holds' action
        exact stuck after ⟨p, action, reduced⟩
      have ends := (firm.ends_of_stop holds' stop 0).of_chain chain
      rw [← firm.simulate_of_ends formed holds ends, refused] at ends
      exact .inl ends
  · rintro (ends | endless)
    · exact firm.simulate_of_ends formed holds ends
    · refine Table.simulate_of_endless fun after reduces settled => ?_
      obtain ⟨last, chain, holds', rfl⟩ := firm.exists_chain holds reduces
      obtain ⟨_, p, action, _⟩ := endless last chain
      exact (firm.settled_iff holds').1 settled p action

end Firm

/-! Pretending a token -/

/-- A token that is being pretended is a closer that is allowed, and the table takes it. -/
def Pretending (s : Setup) (c : Config) : Prop :=
  ∀ k, c.inserting = some k → k ∈ Repair.insertable ∧ c.inserted < s.options.maxInsertions ∧
    ∃ fuel, (s.table.simulateWith k fuel c.states).isSome = true

theorem pretending_of_reading (reading : c.inserting = none) : s.Pretending c := by
  intro k inserting
  cases reading.symm.trans inserting

theorem Move.pretending (built : s.table.BuiltFrom g) (spelled : c.Spelled g)
    (pretending : s.Pretending c) (move : Move s c c') : s.Pretending c' := by
  cases move with
  | @insertReduce k p _ inserting action reduced =>
    obtain ⟨_, kept, inserted⟩ := reduce_frame reduced
    obtain ⟨made, _⟩ := spelled_reduce built rfl spelled action reduced
    obtain ⟨below, states⟩ := spelled.states_eq
    obtain ⟨closer, allowed, fuel, taken⟩ := pretending k inserting
    intro k' pretended
    obtain rfl := Option.some.inj (inserting.symm.trans (kept.symm.trans pretended))
    rw [states] at made taken
    obtain ⟨fuel', after, _, made', taken'⟩ := (Table.simulateWith_cases taken).2 p action
    obtain rfl := Option.some.inj (made'.symm.trans made)
    exact ⟨closer, inserted ▸ allowed, fuel', taken'⟩
  | insertShift => exact pretending_of_reading rfl
  | insertStop => exact pretending_of_reading rfl
  | reduce reading _ _ reduced =>
    obtain ⟨_, kept, _⟩ := reduce_frame reduced
    exact pretending_of_reading (kept.trans reading)
  | shift reading _ _ shifted =>
    obtain ⟨u, rest, _, rfl⟩ := shift_ok shifted
    exact pretending_of_reading (by rw [flush_eq]; exact reading)
  | takeOver reading =>
    exact pretending_of_reading (by rw [Setup.takeOver, flush_eq]; exact reading)
  | insert _ _ _ repair =>
    rintro k ⟨⟩
    obtain ⟨closer, taken⟩ := Repair.insert_cases repair
    exact ⟨closer, of_decide_eq_true (Repair.canInsert_of_insert repair), _, taken⟩
  | wrap reading => exact pretending_of_reading reading
  | skip reading _ _ _ _ skipped =>
    obtain ⟨u, rest, _, rfl⟩ := skip_ok skipped
    exact pretending_of_reading ((inserting_pushSkipped u).trans reading)

theorem rest_of_chain (chain : ReflTransGen (s.ReducesOn k) c last) :
    last.rest = c.rest ∧ last.inserting = c.inserting ∧ last.inserted = c.inserted := by
  induction chain with
  | refl => exact ⟨rfl, rfl, rfl⟩
  | tail _ reduces ih =>
    obtain ⟨p, _, reduced⟩ := reduces
    obtain ⟨rest, inserting, inserted⟩ := reduce_frame reduced
    exact ⟨rest.trans ih.1, inserting.trans ih.2.1, inserted.trans ih.2.2⟩

/-- While a token is being pretended, the parser's steps are the reductions on it. -/
theorem steps_of_inserting (inserting : c.inserting = some k)
    (chain : ReflTransGen (s.ReducesOn k) c last) :
    ReflTransGen (fun before after => before.inserting = some k ∧ s.ReducesOn k before after ∧
      s.step before = .ok (.next after)) c last := by
  induction chain with
  | refl => exact .refl
  | tail earlier reduces ih =>
    have still := (rest_of_chain earlier).2.1.trans inserting
    obtain ⟨p, action, reduced⟩ := reduces
    refine ih.tail ⟨still, ⟨p, action, reduced⟩, ?_⟩
    simp only [step, still, insertStep, action, reduced]
    rfl

/-- A token that the table takes and that is being pretended is put on the stack, once the reductions in
front of it are made. -/
theorem exists_pretended (built : s.table.BuiltFrom g) (spelled : c.Spelled g)
    (inserting : c.inserting = some k) (closer : k ∈ Repair.insertable) {fuel : Nat}
    (foreseen : s.table.simulateWith k fuel c.states = some result) :
    ∃ last next, ReflTransGen (s.ReducesOn k) c last ∧ last.Spelled g ∧
      s.table.action last.top k = .shift next ∧
      s.step last = .ok (.next (endInsertion (pushMissing last k next))) ∧
      (endInsertion (pushMissing last k next)).states = result := by
  have firm := firm_of_built built
  cases firm.ends_of_simulateWith spelled foreseen with
  | @shift last _ next chain action pushes =>
    have still := (rest_of_chain chain).2.1.trans inserting
    have missing : Pushes next last (endInsertion (pushMissing last k next)) := ⟨_, rfl, rfl, rfl⟩
    exact ⟨last, next, chain, (firm.chain spelled chain).1, action, step_pretend still action,
      missing.states.trans pushes.states.symm⟩
  | accept _ action =>
    obtain rfl := built.eof_of_accept action
    exact absurd closer (by decide)

/-- Where some steps lead. -/
def after? (s : Setup) : Nat → Config → Option Config
  | 0, c => some c
  | n + 1, c =>
    match s.step c with
    | .ok (.next c') => after? s n c'
    | _ => none

theorem steps_of_after? {n : Nat} (h : s.after? n c = some c') :
    ReflTransGen (fun before after => s.step before = .ok (.next after)) c c' := by
  induction n generalizing c with
  | zero =>
    obtain rfl := Option.some.inj h
    exact .refl
  | succ n ih =>
    unfold after? at h
    split at h
    · rename_i next step
      exact .head step (ih h)
    · cases h

/-- The simulation and the parser agree on every stack of a parse: a terminal is taken, with some states
as the result, just where the parser's own reductions and the shift lead to these states; it is refused
where they come to an error or do not end. So a token that is pretended is put on the stack, exactly
once. -/
theorem simulate_agrees (compatible : s.table.checkCompatible = .ok ()) (reached : s.Reached tokens c)
    (k : Kind) :
    (∀ result, s.table.simulate c.states k = some result ↔ s.Ends k c (some result)) ∧
    (s.table.simulate c.states k = none ↔ s.Ends k c none ∨
      ∀ last, ReflTransGen (s.ReducesOn k) c last → ∃ after, s.ReducesOn k last after) ∧
    ∀ g, Table.build g = .ok s.table → s.chooseRepair c.settle c.settle.lookahead = .insert k →
      s.recover c.settle c.settle.lookahead = .ok (.next { c.settle with inserting := some k }) ∧
      ∃ last next, ReflTransGen (fun before after => before.inserting = some k ∧
          s.ReducesOn k before after ∧ s.step before = .ok (.next after))
          { c.settle with inserting := some k } last ∧
        s.table.action last.top k = .shift next ∧
        s.step last = .ok (.next (endInsertion (pushMissing last k next))) := by
  have formed := Table.wellFormed_of_compatible compatible
  have footed := reached.footed formed
  have firm := firm_of_formed formed
  refine ⟨fun result => ⟨?_, ?_⟩, firm.simulate_eq_none_iff formed footed, ?_⟩
  · exact firm.ends_of_simulateWith footed
  · exact firm.simulate_of_ends formed footed
  · intro g built choice
    have parts := Table.build_ok built
    have spelled := reached.spelled_of_built parts
    obtain ⟨closer, accepts⟩ := Repair.insert_cases choice
    obtain ⟨result, foreseen⟩ := Option.isSome_iff_exists.1 accepts
    obtain ⟨last, next, chain, _, action, pushed, _⟩ := exists_pretended parts
      (c := { c.settle with inserting := some k }) ⟨spelled.path, spelled.repeats⟩ rfl closer foreseen
    exact ⟨by rw [recover, choice], last, next, steps_of_inserting rfl chain, action, pushed⟩

end Setup

/-- Names, each with a semicolon behind it. -/
def Grammar.endedNames : Grammar :=
  { nonterminals := #[.hidden "list", .hidden "name"]
    levels := #[]
    productions := #[⟨0, [], none⟩, ⟨0, [.nonterminal 0, .nonterminal 1, .terminal .semicolon], none⟩,
      ⟨1, [.terminal .ident], none⟩]
    start := 0 }

/-- Behind a name without a semicolon one is pretended, after a reduction. -/
theorem Setup.simulate_agrees_endedNames : ∃ t, Table.build .endedNames = .ok t ∧
    ∃ c, (Setup.mk t {} none).Reached (Token.readAll "a") c ∧
      (Setup.mk t {} none).chooseRepair c.settle c.settle.lookahead = .insert .semicolon ∧
      ∃ last next, ReflTransGen (fun before after => before.inserting = some .semicolon ∧
          (Setup.mk t {} none).ReducesOn .semicolon before after ∧
          (Setup.mk t {} none).step before = .ok (.next after))
          { c.settle with inserting := some .semicolon } last ∧
        t.action last.top .semicolon = .shift next ∧
        (Setup.mk t {} none).step last = .ok (.next (endInsertion (pushMissing last .semicolon next))) := by
  obtain ⟨t, built, passes, chooses⟩ := Table.exists_built (g := .endedNames)
    (P := fun t => t.checkCompatible.toBool = true ∧
      ((Setup.mk t {} none).after? 2 (.initial (Token.readAll "a"))).any (fun c => decide
        ((Setup.mk t {} none).chooseRepair c.settle c.settle.lookahead = .insert .semicolon)) = true)
    (by with_unfolding_all decide)
  obtain ⟨⟨⟩, compatible⟩ := exists_of_toBool passes
  obtain ⟨c, steps, chosen⟩ := (Option.any_eq_true _ _).1 chooses
  have reached : (Setup.mk t {} none).Reached (Token.readAll "a") c := steps_of_after? steps
  have choice := of_decide_eq_true chosen
  obtain ⟨_, _, pretends⟩ := simulate_agrees (s := ⟨t, {}, none⟩) compatible reached .semicolon
  exact ⟨t, built, c, reached, choice, (pretends _ built choice).2⟩

end ShaderTree
