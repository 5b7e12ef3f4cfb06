import ShaderTree.Proofs.Parser.Errorfree
import ShaderTree.Proofs.Parser.Foresight

/-! Repairs make progress. A repair leaves the next token out or makes room for it, and the parser takes
this token before it repairs again. So a token is repaired at once at most, and few tokens are pretended
in one place. -/
namespace ShaderTree

open Relation (ReflTransGen TransGen)

/-- What a parse can start from: tokens alone, or those of a changed text and the tree of the old one. -/
inductive Opens : Option Reuse → List Token → Prop
  | fresh (tokens : List Token) : Opens none tokens
  | again {text newText : String} {old : Document} {changes : List Change} {edits : List Edit}
      {map : EditMap} (parsed : Parsed Language.IsBuilt text old)
      (changed : Change.applyAll text changes = .ok (edits, newText))
      (mapped : EditMap.ofEdits? edits text.utf8ByteSize = .ok (some map)) :
      Opens (some (.ofDocument old map)) (Token.readAll newText)

theorem Opens.reuse {reuse : Option Reuse} {tokens : List Token} (opens : Opens reuse tokens) :
    ∀ r, reuse = some r → r.HasLeaves ∧ r.Covers tokens := by
  cases opens with
  | fresh => exact fun r is => nomatch is
  | @again _ _ old _ _ map parsed changed mapped =>
    rintro r ⟨⟩
    obtain ⟨rfl, tokenized⟩ := parsed.isTokenized
    obtain ⟨map', found, describes⟩ := EditMap.ofEdits?_changes changed
    obtain rfl := Option.some.inj (Except.ok.inj (found.symm.trans mapped))
    exact ⟨Reuse.hasLeaves_ofDocument old map', Reuse.covers_ofDocument tokenized describes⟩

theorem Reuse.Covers.suffix {r : Reuse} {tokens later : List Token} (covers : r.Covers tokens)
    (suffix : later <:+ tokens) : r.Covers later :=
  fun u member => covers u (suffix.subset member)

/-- A token that is pretended in front of another makes the table take that one. -/
theorem Repair.insert_fits {t : Table} {states : List Nat} {lookahead k : Kind} {upcoming : List Kind}
    {canInsert : Bool} (h : choose t states lookahead upcoming canInsert = .insert k)
    (inside : lookahead ≠ .eof) :
    ∃ after, t.simulate states k = some after ∧ t.accepts after lookahead = true := by
  unfold choose at h
  dsimp only at h
  split at h
  · rename_i k' found
    obtain rfl := Repair.insert.inj h
    split at found
    · unfold closer? at found
      rw [if_neg inside, Option.or_none] at found
      have fits := List.find?_some found
      exact (Option.any_eq_true _ _).1 fits
    · cases found
  · repeat' split at h
    all_goals cases h

namespace Setup

open Config

variable {g : Grammar} {s : Setup} {c c' c1 last : Config} {tokens : List Token} {k : Kind}
  {next n : Nat}

/-- The next step is a repair. -/
def Recovers (s : Setup) (c : Config) : Prop :=
  c.inserting = none ∧ s.table.action c.top c.settle.lookahead = .error

/-- A step that is no repair. -/
def GoesOn (s : Setup) (before after : Config) : Prop :=
  ¬ s.Recovers before ∧ s.step before = .ok (.next after)

/-- The table takes the next token, after some reductions. -/
def WillTake (s : Setup) (c : Config) : Prop :=
  ∃ fuel, (s.table.simulateWith c.settle.lookahead fuel c.states).isSome = true

theorem not_recovers (inserting : c.inserting = some k) : ¬ s.Recovers c :=
  fun ⟨reading, _⟩ => nomatch reading.symm.trans inserting

/-! Up to the next shift -/

/-- While tokens are read, the parser's steps are the reductions on the next one. -/
theorem exists_steps_of_reading (reading : c.inserting = none)
    (terminal : c.settle.lookahead.isTerminal = true)
    (chain : ReflTransGen (s.ReducesOn c.settle.lookahead) c.settle last) :
    ∃ c', ReflTransGen s.GoesOn c c' ∧ c'.settle = last := by
  induction chain with
  | refl => exact ⟨c, .refl, rfl⟩
  | @tail _ after chain reduces ih =>
    obtain ⟨c', steps, rfl⟩ := ih
    obtain ⟨rest, inserting, _⟩ := rest_of_chain chain
    obtain ⟨p, action, reduced⟩ := reduces
    have same : c'.settle.lookahead = c.settle.lookahead := by rw [lookahead, lookahead, rest]
    rw [← same] at terminal action reduced
    have step := step_reduce (c := c') (inserting.trans reading) terminal action reduced
    refine ⟨after, steps.tail ⟨?_, step⟩, settle_eq_of_rest (reduce_frame reduced).1⟩
    rintro ⟨_, refused⟩
    cases action.symm.trans refused

/-- Where the table takes the next token, the parser comes to its shift without a repair. -/
theorem WillTake.exists_shift (built : s.table.BuiltFrom g) (spelled : c.Spelled g)
    (reading : c.inserting = none) (terminal : c.settle.lookahead.isTerminal = true)
    (inside : c.settle.lookahead ≠ .eof) (taken : s.WillTake c) :
    ∃ c' next, ReflTransGen s.GoesOn c c' ∧ c'.inserting = none ∧ c'.settle.rest = c.settle.rest ∧
      s.table.action c'.top c'.settle.lookahead = .shift next := by
  obtain ⟨fuel, taken⟩ := taken
  obtain ⟨result, foreseen⟩ := Option.isSome_iff_exists.1 taken
  cases (firm_of_built built).ends_of_simulateWith spelled.settle foreseen with
  | @shift last _ next chain action _ =>
    obtain ⟨c', steps, rfl⟩ := exists_steps_of_reading reading terminal chain
    obtain ⟨rest, inserting, _⟩ := rest_of_chain chain
    refine ⟨c', next, steps, inserting.trans reading, rest, ?_⟩
    have same : c'.settle.lookahead = c.settle.lookahead := by rw [lookahead, lookahead, rest]
    rw [same]
    exact action
  | accept _ action => exact absurd (built.eof_of_accept action) inside

theorem consumes_of_advance (leaves : ∀ r, s.reuse = some r → r.HasLeaves)
    (advanced : s.advance c.settle next = .ok c') : Consumes c c' := by
  rcases advance_cases advanced with shifted | ⟨r, found, reuse, finds, rfl⟩
  · obtain ⟨u, rest, front, rfl⟩ := shift_ok shifted
    exact ⟨u, rest, front, List.suffix_refl _⟩
  · exact consumes_of_takeOver leaves reuse finds

/-- What a repair leads to: the token is left out, or it is shifted before the next repair. -/
inductive Resolves (s : Setup) (c c1 : Config) : Prop
  | skip (skipped : s.skip c.settle = .ok c1)
  | shift {c2 c3 : Config} {next : Nat} (steps : ReflTransGen s.GoesOn c1 c2)
      (reading : c2.inserting = none) (rest : c2.settle.rest = c.settle.rest)
      (action : s.table.action c2.top c2.settle.lookahead = .shift next)
      (advanced : s.advance c2.settle next = .ok c3) (step : s.step c2 = .ok (.next c3))
      (consumes : Consumes c c3)

section

variable (built : s.table.BuiltFrom g)
  (reuse : ∀ r, s.reuse = some r → r.HasLeaves ∧ r.Covers tokens) (suffix : c.rest <:+ tokens)
  (terminal : c.settle.lookahead.isTerminal = true) (inside : c.settle.lookahead ≠ .eof)

include built reuse suffix terminal inside

theorem WillTake.resolves (spelled : c'.Spelled g) (reading : c'.inserting = none)
    (rest : c'.rest = c.settle.rest) (taken : s.table.accepts c'.states c.settle.lookahead = true)
    (steps : ReflTransGen s.GoesOn c1 c') : s.Resolves c c1 := by
  have same := lookahead_settle_eq rest
  rw [← same] at terminal inside taken
  have taken : s.WillTake c' := ⟨_, taken⟩
  obtain ⟨c2, next, more, reading2, rest2, action⟩ :=
    taken.exists_shift built spelled reading terminal inside
  have left : c2.settle.rest = c.settle.rest := by rw [rest2, settle_eq_of_rest rest, rest]
  have same2 : c2.settle.lookahead = c'.settle.lookahead := by rw [lookahead, lookahead, rest2]
  rw [← same2] at terminal inside
  have covers (r : Reuse) (is : s.reuse = some r) : r.Covers c2.settle.rest := by
    rw [left]
    exact (reuse r is).2.suffix ((rest_suffix_settle c).trans suffix)
  obtain ⟨c3, advanced⟩ := exists_advance_of_covers covers inside next
  obtain ⟨u, us, front, shorter⟩ := consumes_of_advance (fun r is => (reuse r is).1) advanced
  exact .shift (steps.trans more) reading2 left action advanced
    (step_shift reading2 terminal action advanced) ⟨u, us, left ▸ front, shorter⟩

theorem resolves_of_insert (spelled : c.Spelled g)
    (repair : s.chooseRepair c.settle c.settle.lookahead = .insert k) :
    s.Resolves c { c.settle with inserting := some k } := by
  obtain ⟨closer, _⟩ := Repair.insert_cases repair
  obtain ⟨after, foreseen, fits⟩ := Repair.insert_fits repair inside
  obtain ⟨last, next, chain, spelled', action, pushed, states⟩ := exists_pretended built
    (c := { c.settle with inserting := some k }) ⟨spelled.path, spelled.repeats⟩ rfl closer foreseen
  obtain ⟨rest, inserting, _⟩ := rest_of_chain chain
  have steps : ReflTransGen s.GoesOn { c.settle with inserting := some k } last :=
    ReflTransGen.mono (fun before after ⟨inserting, _, step⟩ => ⟨not_recovers inserting, step⟩) _ _
      (steps_of_inserting rfl chain)
  exact WillTake.resolves built reuse suffix terminal inside (spelled_insertShift built spelled' action)
    rfl rest (states ▸ fits) (steps.tail ⟨not_recovers inserting, pushed⟩)

theorem resolves_of_wrap {d : Nat} (spelled : c.Spelled g) (reading : c.inserting = none)
    (repair : s.chooseRepair c.settle c.settle.lookahead = .wrap (d + 1)) :
    s.Resolves c (wrap c.settle (d + 1) c.settle.lookahead) := by
  obtain ⟨enough, leads⟩ := Repair.wrap_cases repair
  obtain ⟨spelled', states⟩ := spelled_wrap c.settle.lookahead spelled.settle enough
  have fits := leads.resolve_right fun ⟨atEnd, _⟩ => inside atEnd
  exact WillTake.resolves built reuse suffix terminal inside spelled' reading rfl (states ▸ fits) .refl

omit terminal in
/-- A repair at a token leaves it out, or the parser goes on to shift it. -/
theorem resolves_of_step (spelled : c.Spelled g) (recovers : s.Recovers c) {y : Step}
    (step : s.step c = .ok y) : ∃ c1, y = .next c1 ∧ s.Resolves c c1 := by
  obtain ⟨reading, refused⟩ := recovers
  rcases step_cases step with ⟨c1, rfl, move⟩ | ⟨_, _, final⟩
  · refine ⟨c1, rfl, ?_⟩
    cases move with
    | insertReduce inserting => cases reading.symm.trans inserting
    | insertShift inserting => cases reading.symm.trans inserting
    | insertStop inserting => cases reading.symm.trans inserting
    | reduce _ _ action => cases refused.symm.trans action
    | shift _ _ action => cases refused.symm.trans action
    | takeOver _ _ action => cases refused.symm.trans action
    | insert _ terminal _ repair =>
      exact resolves_of_insert built reuse suffix terminal inside spelled repair
    | wrap _ terminal _ repair =>
      exact resolves_of_wrap built reuse suffix terminal inside spelled reading repair
    | skip _ _ _ _ _ skipped => exact .skip skipped
  · cases final with
    | accepted _ _ action => cases refused.symm.trans action
    | gaveUp _ atEnd => exact absurd atEnd inside

end

/-- A repair that comes later comes behind the shift. -/
theorem later_of_shift {c2 c3 : Config} (steps : ReflTransGen s.GoesOn c1 c2)
    (action : s.table.action c2.top c2.settle.lookahead = .shift next)
    (step : s.step c2 = .ok (.next c3)) (recovers : s.Recovers c')
    (later : ReflTransGen (fun before after => s.step before = .ok (.next after)) c1 c') :
    ReflTransGen (fun before after => s.step before = .ok (.next after)) c3 c' := by
  induction steps using ReflTransGen.head_induction_on with
  | refl =>
    rcases later.cases_head with rfl | ⟨c4, step', later⟩
    · cases action.symm.trans recovers.2
    · obtain rfl := Step.next.inj (Except.ok.inj (step.symm.trans step'))
      exact later
  | head goesOn _ ih =>
    rcases later.cases_head with rfl | ⟨c4, step', later⟩
    · exact absurd recovers goesOn.1
    · obtain rfl := Step.next.inj (Except.ok.inj (goesOn.2.symm.trans step'))
      exact ih later

theorem rest_suffix_of_steps
    (steps : ReflTransGen (fun before after => s.step before = .ok (.next after)) c c') :
    c'.rest <:+ c.rest := by
  induction steps with
  | refl => exact List.suffix_refl _
  | tail _ step ih =>
    rcases step_cases step with ⟨_, is, move⟩ | ⟨_, is | is, _⟩
    · exact (Step.next.inj is ▸ move.rest_suffix).trans ih
    · cases is
    · cases is

/-- Between two repairs a token is consumed. -/
theorem Resolves.consumes (resolves : s.Resolves c c1) (recovers : s.Recovers c')
    (later : ReflTransGen (fun before after => s.step before = .ok (.next after)) c1 c') :
    Consumes c c' := by
  cases resolves with
  | skip skipped =>
    obtain ⟨u, us, front, suffix⟩ := consumes_of_skip skipped
    exact ⟨u, us, front, (rest_suffix_of_steps later).trans suffix⟩
  | shift steps _ _ action _ step consumes =>
    obtain ⟨u, us, front, suffix⟩ := consumes
    exact ⟨u, us, front,
      (rest_suffix_of_steps (later_of_shift steps action step recovers later)).trans suffix⟩

/-! Tokens that are pretended in one place -/

theorem suffix_dropWhile {α : Type} {p : α → Bool} {later whole : List α} (suffix : later <:+ whole) :
    later.dropWhile p <:+ whole.dropWhile p := by
  induction whole with
  | nil => rw [List.suffix_nil.1 suffix]
  | cons x whole ih =>
    rcases List.suffix_cons_iff.1 suffix with rfl | suffix
    · exact List.suffix_refl _
    · refine (ih suffix).trans ?_
      cases drops : p x with
      | true => rw [List.dropWhile_cons_of_pos drops]
      | false =>
        rw [List.dropWhile_cons_of_neg (by simp [drops])]
        exact (List.dropWhile_suffix p).trans (List.suffix_cons x whole)

/-- On the way this many missing tokens are put on the stack. -/
inductive Pretends (s : Setup) (c : Config) : Nat → Config → Prop
  | refl : Pretends s c 0 c
  | missing {n : Nat} {c' : Config} {k : Kind} {next : Nat} (before : Pretends s c n c')
      (inserting : c'.inserting = some k) (action : s.table.action c'.top k = .shift next) :
      Pretends s c (n + 1) (endInsertion (pushMissing c' k next))
  | other {n : Nat} {c' c'' : Config} (before : Pretends s c n c')
      (none : ∀ k next, c'.inserting = some k → s.table.action c'.top k ≠ .shift next)
      (step : s.step c' = .ok (.next c'')) : Pretends s c n c''

theorem Pretends.steps (pretends : s.Pretends c n c') :
    ReflTransGen (fun before after => s.step before = .ok (.next after)) c c' := by
  induction pretends with
  | refl => exact .refl
  | missing _ inserting action ih => exact ih.tail (step_pretend inserting action)
  | other _ _ step ih => exact ih.tail step

/-- What the last repair foresaw is still to come: after a token that was pretended the next one is
taken, so no other is pretended in front of it. -/
structure Foresees (s : Setup) (c : Config) : Prop where
  few : c.inserted ≤ s.options.maxInsertions
  reading : c.inserting = none → c.settle.lookahead ≠ .eof →
    c.inserted = 0 ∨ c.inserted = 1 ∧ s.WillTake c
  pretending : ∀ k, c.inserting = some k → k ∈ Repair.insertable ∧
    c.inserted < s.options.maxInsertions ∧ ∃ fuel after,
      s.table.simulateWith k fuel c.states = some after ∧ (c.settle.lookahead ≠ .eof →
        c.inserted = 0 ∧ s.table.accepts after c.settle.lookahead = true)

theorem foresees_of_consumed (inserted : c.inserted = 0) (reading : c.inserting = none) :
    s.Foresees c where
  few := inserted ▸ Nat.zero_le _
  reading := fun _ _ => .inl inserted
  pretending := fun _ is => nomatch reading.symm.trans is

/-- Where a repair is next, nothing was pretended for the next token. -/
theorem Foresees.inserted_eq_zero (foresees : s.Foresees c) (spelled : c.Spelled g)
    (recovers : s.Recovers c) (inside : c.settle.lookahead ≠ .eof) : c.inserted = 0 := by
  refine (foresees.reading recovers.1 inside).resolve_right ?_
  rintro ⟨_, fuel, taken⟩
  obtain ⟨below, states⟩ := spelled.states_eq
  rw [states, Table.simulateWith_error recovers.2] at taken
  cases taken

/-- What is pretended is not given up. -/
theorem Foresees.not_stop (built : s.table.BuiltFrom g) (foresees : s.Foresees c)
    (spelled : c.Spelled g) (inserting : c.inserting = some k) :
    ¬ (s.table.action c.top k = .accept ∨ s.table.action c.top k = .error) := by
  obtain ⟨closer, _, fuel, after, foreseen, _⟩ := foresees.pretending k inserting
  obtain ⟨below, states⟩ := spelled.states_eq
  rintro (action | action)
  · obtain rfl := built.eof_of_accept action
    exact absurd closer (by decide)
  · rw [states, Table.simulateWith_error action] at foreseen
    cases foreseen

theorem Move.foresees (built : s.table.BuiltFrom g) (spelled : c.Spelled g) (foresees : s.Foresees c)
    (move : Move s c c') : s.Foresees c' := by
  have firm := firm_of_built built
  cases move with
  | @insertReduce k p _ inserting action reduced =>
    obtain ⟨rest, kept, inserted⟩ := reduce_frame reduced
    obtain ⟨closer, allowed, fuel, after, foreseen, fits⟩ := foresees.pretending k inserting
    obtain ⟨fuel', _, foreseen'⟩ := firm.simulateWith_reduced spelled action reduced foreseen
    have ahead : c'.settle.lookahead = c.settle.lookahead := by
      simp only [settle, lookahead, rest]
    refine ⟨inserted ▸ foresees.few, fun reading => ?_, fun k' pretended => ?_⟩
    · cases inserting.symm.trans (kept.symm.trans reading)
    · obtain rfl := Option.some.inj (inserting.symm.trans (kept.symm.trans pretended))
      rw [inserted, ahead]
      exact ⟨closer, allowed, fuel', after, foreseen', fits⟩
  | @insertShift k next inserting action =>
    obtain ⟨_, allowed, fuel, after, foreseen, fits⟩ := foresees.pretending k inserting
    obtain ⟨below, states⟩ := spelled.states_eq
    have pushes : Pushes next c (endInsertion (pushMissing c k next)) := ⟨_, rfl, rfl, rfl⟩
    rw [states, Table.simulateWith_shift action, ← states, ← pushes.states] at foreseen
    obtain rfl := Option.some.inj foreseen
    refine ⟨allowed, fun _ inside => .inr ?_, fun _ is => by cases is⟩
    obtain ⟨none, fits⟩ := fits inside
    exact ⟨congrArg (· + 1) none, _, fits⟩
  | insertStop inserting stop => exact absurd stop (foresees.not_stop built spelled inserting)
  | @reduce p _ reading _ action reduced =>
    obtain ⟨rest, kept, inserted⟩ := reduce_frame reduced
    refine ⟨inserted ▸ foresees.few, fun _ inside => ?_, fun _ is => ?_⟩
    · rw [lookahead_settle_eq rest] at inside
      rcases foresees.reading reading inside with none | ⟨one, fuel, taken⟩
      · exact .inl (inserted.trans none)
      · obtain ⟨result, foreseen⟩ := Option.isSome_iff_exists.1 taken
        obtain ⟨fuel', _, foreseen'⟩ := firm.simulateWith_reduced spelled.settle action reduced foreseen
        refine .inr ⟨inserted.trans one, fuel', ?_⟩
        rw [lookahead_settle_eq rest, foreseen', Option.isSome_some]
    · cases (kept.trans reading).symm.trans is
  | shift reading _ _ shifted =>
    obtain ⟨u, rest, _, rfl⟩ := shift_ok shifted
    exact foresees_of_consumed rfl (by rw [flush_eq]; exact reading)
  | takeOver reading => exact foresees_of_consumed rfl (by rw [Setup.takeOver, flush_eq]; exact reading)
  | @insert k reading _ action repair =>
    obtain ⟨closer, accepts⟩ := Repair.insert_cases repair
    refine ⟨foresees.few, fun reading => (by cases reading), ?_⟩
    rintro k ⟨⟩
    have allowed := of_decide_eq_true (Repair.canInsert_of_insert repair)
    by_cases inside : c.settle.lookahead = .eof
    · obtain ⟨after, foreseen⟩ := Option.isSome_iff_exists.1 accepts
      refine ⟨closer, allowed, _, after, foreseen, fun other => absurd ?_ other⟩
      exact (congrArg lookahead (settle_settle c)).trans inside
    · obtain ⟨after, foreseen, fits⟩ := Repair.insert_fits repair inside
      refine ⟨closer, allowed, _, after, foreseen, fun _ => ?_⟩
      exact ⟨foresees.inserted_eq_zero spelled ⟨reading, action⟩ inside,
        (congrArg lookahead (settle_settle c)).symm ▸ fits⟩
  | wrap reading _ action =>
    refine ⟨foresees.few, fun _ inside => .inl ?_, fun _ is => by cases reading.symm.trans is⟩
    exact foresees.inserted_eq_zero spelled ⟨reading, action⟩
      fun atEnd => inside ((lookahead_settle_eq (c := c) rfl).trans atEnd)
  | skip reading _ _ _ _ skipped =>
    obtain ⟨u, rest, _, rfl⟩ := skip_ok skipped
    exact foresees_of_consumed rfl ((inserting_pushSkipped u).trans reading)

theorem Reached.foresees (built : s.table.BuiltFrom g) (reached : s.Reached tokens c) :
    c.Spelled g ∧ s.Foresees c := by
  have moves := reached.moves
  clear reached
  induction moves with
  | refl => exact ⟨spelled_initial tokens, foresees_of_consumed rfl rfl⟩
  | tail _ move ih => exact ⟨move.spelled_of_built built ih.1, move.foresees built ih.1 ih.2⟩

/-- A move that takes no token and pretends none leaves the count of pretended tokens as it is. -/
theorem Move.inserted_eq (built : s.table.BuiltFrom g) (leaves : ∀ r, s.reuse = some r → r.HasLeaves)
    (foresees : s.Foresees c) (spelled : c.Spelled g)
    (none : ∀ k next, c.inserting = some k → s.table.action c.top k ≠ .shift next)
    (same : c.settle.rest.length ≤ c'.settle.rest.length) (move : Move s c c') :
    c'.inserted = c.inserted := by
  have taken {c' : Config} (same : c.settle.rest.length ≤ c'.settle.rest.length) : ¬ Consumes c c' :=
    fun consumes => absurd consumes.lt (Nat.not_lt.2 same)
  cases move with
  | insertReduce _ _ reduced => exact (reduce_frame reduced).2.2
  | insertShift inserting action => exact absurd action (none _ _ inserting)
  | insertStop inserting stop => exact absurd stop (foresees.not_stop built spelled inserting)
  | reduce _ _ _ reduced => exact (reduce_frame reduced).2.2
  | shift _ _ _ shifted =>
    obtain ⟨u, rest, front, rfl⟩ := shift_ok shifted
    exact absurd ⟨u, rest, front, List.suffix_refl _⟩ (taken same)
  | takeOver _ _ _ reuse finds =>
    exact absurd (consumes_of_takeOver leaves reuse finds) (taken same)
  | insert => rfl
  | wrap => rfl
  | skip _ _ _ _ _ skipped => exact absurd (consumes_of_skip skipped) (taken same)

/-- As long as no token is consumed, the parser counts the tokens that it pretends. -/
theorem Pretends.inserted_eq (built : s.table.BuiltFrom g)
    (leaves : ∀ r, s.reuse = some r → r.HasLeaves) (reached : s.Reached tokens c)
    (pretends : s.Pretends c n c') (same : c.settle.rest.length ≤ c'.settle.rest.length) :
    c'.inserted = c.inserted + n := by
  induction pretends with
  | refl => rfl
  | missing _ _ _ ih => exact congrArg (· + 1) (ih same)
  | @other n c' c'' before none step ih =>
    have reached' : s.Reached tokens c' := reached.trans before.steps
    obtain ⟨spelled, foresees⟩ := reached'.foresees built
    rcases step_cases step with ⟨_, is, move⟩ | ⟨_, is | is, _⟩
    · obtain rfl := Step.next.inj is
      have shorter : c''.settle.rest.length ≤ c'.settle.rest.length :=
        (suffix_dropWhile move.rest_suffix).length_le
      have earlier : c'.settle.rest.length ≤ c.settle.rest.length :=
        (suffix_dropWhile (rest_suffix_of_steps before.steps)).length_le
      rw [move.inserted_eq built leaves foresees spelled none (Nat.le_trans earlier same)]
      exact ih (Nat.le_trans same shorter)
    · cases is
    · cases is

/-- Recovery makes progress. A repair at a token leaves it out, or the parser goes on to shift it
before the next repair; so repairs are at different tokens. And between two tokens that are consumed one
is pretended at most, at the end of input as many as the options allow. -/
theorem recovery_progresses (built : Table.build g = .ok s.table) (opens : Opens s.reuse tokens) :
    (∀ c, s.Reached tokens c → s.Recovers c → c.settle.lookahead ≠ .eof →
      ((∀ u ∈ tokens, u.kind.IsLexical) → ∃ c1, s.step c = .ok (.next c1)) ∧
        ∀ y, s.step c = .ok y → ∃ c1, y = .next c1 ∧ s.Resolves c c1) ∧
    (∀ c c', s.Reached tokens c → s.Recovers c → c.settle.lookahead ≠ .eof →
      TransGen (fun before after => s.step before = .ok (.next after)) c c' → s.Recovers c' →
        Consumes c c') ∧
    ∀ n c c', s.Reached tokens c → s.Pretends c n c' → c'.settle.rest = c.settle.rest →
      n ≤ if c.settle.lookahead = .eof then s.options.maxInsertions else 1 := by
  have parts := Table.build_ok built
  have reuse := opens.reuse
  have suffix {c : Config} (reached : s.Reached tokens c) : c.rest <:+ tokens :=
    moves_rest_suffix reached.moves
  have resolves {c : Config} {y : Step} (reached : s.Reached tokens c) (recovers : s.Recovers c)
      (inside : c.settle.lookahead ≠ .eof) (step : s.step c = .ok y) :
      ∃ c1, y = .next c1 ∧ s.Resolves c c1 :=
    resolves_of_step parts reuse (suffix reached) inside (reached.spelled_of_built parts) recovers step
  refine ⟨fun c reached recovers inside => ⟨fun lexical => ?_, fun y step => ?_⟩, ?_, ?_⟩
  · have readable : s.Readable (.initial tokens) := ⟨lexical, fun r is => (reuse r is).2⟩
    have settled := (reached.readable readable).suffix (rest_suffix_settle c)
    obtain ⟨y, recovered⟩ := exists_recover (s := s) settled
    have step := (step_recover recovers.1 settled.isTerminal_lookahead recovers.2).trans recovered
    obtain ⟨c1, rfl, _⟩ := resolves reached recovers inside step
    exact ⟨c1, step⟩
  · exact resolves reached recovers inside step
  · intro c c' reached recovers inside steps recovers'
    obtain ⟨c1, step, later⟩ := TransGen.head'_iff.1 steps
    obtain ⟨_, is, resolves⟩ := resolves reached recovers inside step
    obtain rfl := Step.next.inj is
    exact resolves.consumes recovers' later
  · intro n c c' reached pretends rest
    have reached' : s.Reached tokens c' := reached.trans pretends.steps
    obtain ⟨_, foresees⟩ := reached'.foresees parts
    have count := pretends.inserted_eq parts (fun r is => (reuse r is).1) reached
      (Nat.le_of_eq (congrArg List.length rest.symm))
    have same : c'.settle.lookahead = c.settle.lookahead := by rw [lookahead, lookahead, rest]
    have few := foresees.few
    split
    · omega
    · rename_i inside
      rw [← same] at inside
      cases inserting : c'.inserting with
      | none =>
        rcases foresees.reading inserting inside with none | ⟨one, _⟩ <;> omega
      | some k =>
        obtain ⟨_, _, _, _, _, fits⟩ := foresees.pretending k inserting
        have none := (fits inside).1
        omega

/-- Between two names a semicolon is pretended, and then the second is read. -/
theorem recovery_progresses_endedNames : ∃ t, Table.build .endedNames = .ok t ∧
    ∃ c c1, (Setup.mk t {} none).Reached (Token.readAll "a b;") c ∧
      (Setup.mk t {} none).Recovers c ∧ c.settle.lookahead = .ident ∧
        (Setup.mk t {} none).step c = .ok (.next c1) ∧ (Setup.mk t {} none).Resolves c c1 := by
  obtain ⟨t, built, refuses⟩ := Table.exists_built (g := .endedNames)
    (P := fun t => ((Setup.mk t {} none).after? 2 (.initial (Token.readAll "a b;"))).any (fun c =>
      decide (c.inserting = none ∧ t.action c.top c.settle.lookahead = .error ∧
        c.settle.lookahead = .ident)) = true) (by with_unfolding_all decide)
  obtain ⟨c, steps, refused⟩ := (Option.any_eq_true _ _).1 refuses
  obtain ⟨reading, refused, ahead⟩ := of_decide_eq_true refused
  have reached : (Setup.mk t {} none).Reached (Token.readAll "a b;") c := steps_of_after? steps
  obtain ⟨progress, _⟩ := recovery_progresses (s := ⟨t, {}, none⟩) built (.fresh (Token.readAll "a b;"))
  obtain ⟨returns, resolves⟩ := progress c reached ⟨reading, refused⟩ (by rw [ahead]; decide)
  obtain ⟨c1, step⟩ := returns fun _ => Token.isLexical_of_mem_readAll
  obtain ⟨_, is, resolved⟩ := resolves _ step
  obtain rfl := Step.next.inj is
  exact ⟨t, built, c, _, reached, ⟨reading, refused⟩, ahead, step, resolved⟩

end Setup

end ShaderTree
