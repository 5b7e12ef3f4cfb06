import ShaderTree.Proofs.Parser.Progress
import ShaderTree.Proofs.Table.Compatible

/-! A parse with a table that passed the check stays inside of it, whatever the table is: its stack
follows the transitions, so every reduction finds its symbols and a goto. The check does not look at
what is shifted at the end of input, and this is the one way in which a parse of a text can fail. -/
namespace ShaderTree

/-- The states of the symbols follow the transitions of a table, and the rest of the stack repeats
them. -/
structure Config.Footed (t : Table) (c : Config) : Prop where
  trail : t.Trail c.states
  repeats : Config.Repeats c.stack

/-- The terminal that the next step acts on. -/
def Config.terminal (c : Config) : Kind := c.inserting.getD c.settle.lookahead

/-- What a parse of some tokens comes through. -/
def Setup.Reached (s : Setup) (tokens : List Token) (c : Config) : Prop :=
  Relation.ReflTransGen (fun before after => s.step before = .ok (.next after)) (.initial tokens) c

namespace Config

variable {t : Table} {c c' : Config}

theorem footed_initial (tokens : List Token) : (initial tokens).Footed t := ⟨.start, trivial⟩

theorem Footed.exists_states (footed : c.Footed t) : ∃ below, c.states = c.top :: below :=
  footed.repeats.statesOf

theorem Footed.settle (footed : c.Footed t) : c.settle.Footed t := ⟨footed.trail, footed.repeats⟩

theorem Footed.flush (footed : c.Footed t) : c.flush.Footed t :=
  ⟨by rw [states_flush]; exact footed.trail, footed.repeats.flush⟩

theorem Footed.push (footed : c.Footed t) {e : Entry} (role : e.isSymbol = true)
    (goes : t.Goes c.top e.state) (stack : c'.stack = e :: c.stack) : c'.Footed t := by
  obtain ⟨below, states⟩ := footed.exists_states
  have trail := footed.trail
  rw [states] at trail
  refine ⟨?_, ?_⟩
  · change t.Trail (statesOf c'.stack)
    rw [stack, statesOf_symbol role]
    change t.Trail (e.state :: c.states)
    rw [states]
    exact .step trail goes
  · rw [stack]
    exact ⟨fun extra => (by rw [role] at extra; cases extra), footed.repeats⟩

/-- All states on the stack are states of the table, those of the extra entries too. -/
theorem Footed.lt_stateCount (formed : t.WellFormed) (footed : c.Footed t) :
    c.top < t.stateCount ∧ ∀ e ∈ c.stack, e.state < t.stateCount := by
  have bound {stack : List Entry} (repeats : Repeats stack) (trail : t.Trail (statesOf stack)) :
      topState stack < t.stateCount := by
    obtain ⟨below, states⟩ := repeats.statesOf
    exact formed.trail_lt trail _ (states ▸ .head _)
  refine ⟨bound footed.repeats footed.trail, fun e member => ?_⟩
  obtain ⟨above, below, split⟩ := List.append_of_mem member
  have repeats : Repeats (e :: below) := footed.repeats.of_suffix ⟨above, split.symm⟩
  have suffix : statesOf (e :: below) <:+ statesOf c.stack := by
    rw [split]
    unfold statesOf
    rw [List.filter_append, List.map_append, List.append_assoc]
    exact List.suffix_append ..
  refine formed.trail_lt footed.trail _ (suffix.subset ?_)
  obtain ⟨_, states⟩ := repeats.statesOf
  rw [states]
  exact .head _

end Config

namespace Setup

open Config

variable {t : Table} {s : Setup} {c c' : Config} {tokens : List Token}

/-- What happens in a reduction that is asked for: the symbols of its production are there, there is
a goto in the state below them, and all numbers are inside the table. -/
structure Lands (s : Setup) (c : Config) (p : Nat) (r : Reduction) (base next : Nat) (c' : Config) :
    Prop where
  known : s.table.reductions[p]? = some r
  column : r.lhs < s.table.nonterminalCount
  enough : r.length ≤ (c.stack.filter Entry.isSymbol).length
  below : (c.states.drop r.length).head? = some base
  goto : s.table.goto? base r.lhs = some next
  bounds : base < s.table.stateCount ∧ next < s.table.stateCount
  states : c'.states = next :: c.states.drop r.length

theorem footed_reduce {p : Nat} {k : Kind} (formed : s.table.WellFormed)
    (footed : c.Footed s.table) (action : s.table.action c.top k = .reduce p) :
    ∃ c', s.reduce c p k = .ok c' ∧ c'.Footed s.table ∧
      ∃ r base next, s.Lands c p r base next c' := by
  obtain ⟨below, states⟩ := footed.exists_states
  have trail := footed.trail
  rw [states] at trail
  obtain ⟨r, base, under, next, known, column, dropped, goto⟩ := trail.reduces formed action
  rw [← states] at dropped
  obtain ⟨c', reduced, after, repeats⟩ := reduce_of_drop footed.repeats k known dropped goto
  have inside : r.length < c.states.length := by
    by_contra few
    rw [List.drop_eq_nil_of_le (Nat.not_lt.1 few)] at dropped
    cases dropped
  have left : s.table.Trail (base :: under) := dropped ▸ footed.trail.drop inside
  have goes := Table.goes_of_goto goto
  refine ⟨c', reduced, ⟨after ▸ .step left goes, repeats⟩, r, base, next, ?_⟩
  refine ⟨known, column, ?_, by rw [dropped]; rfl, goto,
    ⟨formed.trail_lt left base (.head _), formed.goes_lt goes⟩, by rw [after, dropped]⟩
  simpa [Config.states, Nat.lt_succ_iff] using inside

theorem Move.footed (formed : s.table.WellFormed) (footed : c.Footed s.table) (move : Move s c c') :
    c'.Footed s.table := by
  have reduces {c c' : Config} {p : Nat} {k : Kind} (footed : c.Footed s.table)
      (action : s.table.action c.top k = .reduce p) (reduced : s.reduce c p k = .ok c') :
      c'.Footed s.table := by
    obtain ⟨c'', made, footed', _⟩ := footed_reduce formed footed action
    exact Except.ok.inj (made.symm.trans reduced) ▸ footed'
  have flushed := footed.settle.flush
  cases move with
  | insertReduce _ action reduced => exact reduces footed action reduced
  | insertShift _ action => exact footed.push (by rfl) (Table.goes_of_shift action) rfl
  | insertStop _ _ => exact ⟨footed.trail, footed.repeats⟩
  | reduce _ _ action reduced => exact reduces footed.settle action reduced
  | shift _ _ action shifted =>
    obtain ⟨u, rest, _, rfl⟩ := shift_ok shifted
    have goes := Table.goes_of_shift action
    rw [← top_settle, ← top_flush] at goes
    exact flushed.push (by rfl) goes rfl
  | takeOver _ _ _ _ finds =>
    obtain ⟨record, fits⟩ := Reuse.find?_some finds
    obtain ⟨_, _, goto⟩ := Option.bind_eq_some_iff.1 fits.next
    have goes := Table.goes_of_goto goto
    rw [← top_settle, ← top_flush] at goes
    exact flushed.push (by rfl) goes rfl
  | insert _ _ _ _ => exact ⟨footed.trail, footed.repeats⟩
  | wrap _ _ _ repair =>
    obtain ⟨inside, _⟩ := Repair.wrap_cases repair
    refine ⟨?_, fun _ => rfl, footed.repeats.of_suffix (pop_suffix _ _)⟩
    change s.table.Trail (statesOf (Config.pop _ c.settle.stack).2)
    rw [statesOf_pop inside]
    exact footed.trail.drop inside
  | skip _ _ _ _ _ skipped =>
    obtain ⟨states, repeats⟩ := states_skip footed.settle.repeats skipped
    exact ⟨states ▸ footed.trail, repeats⟩

theorem Reached.moves (reached : s.Reached tokens c) :
    Relation.ReflTransGen (Move s) (.initial tokens) c := by
  unfold Reached at reached
  induction reached with
  | refl => exact .refl
  | tail _ step ih =>
    rcases step_cases step with ⟨_, is, move⟩ | ⟨_, is | is, _⟩
    · exact ih.tail (Step.next.inj is ▸ move)
    · cases is
    · cases is

theorem Reached.spelled_of_built {g : Grammar} (built : s.table.BuiltFrom g)
    (reached : s.Reached tokens c) : c.Spelled g := by
  have moves := reached.moves
  clear reached
  induction moves with
  | refl => exact spelled_initial tokens
  | tail _ move ih => exact move.spelled_of_built built ih

theorem Reached.footed (formed : s.table.WellFormed) (reached : s.Reached tokens c) :
    c.Footed s.table := by
  have moves := reached.moves
  clear reached
  induction moves with
  | refl => exact footed_initial tokens
  | tail _ move ih => exact move.footed formed ih

/-- Reductions do not fall off a table that passed the check: in every configuration of a parse, all
states on the stack are in the table, and a reduction that is next can be made, with all that it
takes. -/
theorem reductions_land (compatible : s.table.checkCompatible = .ok ())
    (reached : s.Reached tokens c) :
    (∀ e ∈ c.stack, e.state < s.table.stateCount) ∧
      ∀ p, s.table.action c.top c.terminal = .reduce p →
        ∃ r base next c', s.Lands c p r base next c' ∧ s.step c = .ok (.next c') := by
  have formed := Table.wellFormed_of_compatible compatible
  have footed := reached.footed formed
  refine ⟨(footed.lt_stateCount formed).2, fun p action => ?_⟩
  cases inserting : c.inserting with
  | some k =>
    rw [terminal, inserting, Option.getD_some] at action
    obtain ⟨c', reduced, _, r, base, next, lands⟩ := footed_reduce formed footed action
    refine ⟨r, base, next, c', lands, ?_⟩
    simp only [step, inserting, insertStep, action, reduced]
    rfl
  | none =>
    rw [terminal, inserting, Option.getD_none] at action
    obtain ⟨c', reduced, _, r, base, next, lands⟩ := footed_reduce formed footed.settle action
    refine ⟨r, base, next, c', ⟨lands.known, lands.column, lands.enough, lands.below, lands.goto,
      lands.bounds, lands.states⟩, ?_⟩
    have terminal := formed.isTerminal_of_action action (by simp)
    exact step_reduce inserting terminal action reduced

/-- A semicolon is taken off the stack, with the blank in front of it and the row before that. -/
theorem reductions_land_semicolons : ∃ t c, Table.build .semicolons = .ok t ∧
    t.checkCompatible = .ok () ∧ (Setup.mk t {} none).Reached (Token.readAll " ;") c ∧
    c.stack.map (·.role) = [.symbol, .extra, .symbol] ∧
    ∃ base next c', (Setup.mk t {} none).Lands c 1 ⟨0, 2, none⟩ base next c' ∧
      (Setup.mk t {} none).step c = .ok (.next c') := by
  obtain ⟨t, built, passes, start, empty, goto, shift, reduces, row⟩ := Table.exists_built
    (g := .semicolons) (P := fun t => t.checkCompatible.toBool = true ∧
      t.action 0 .semicolon = .reduce 0 ∧ t.reductions[0]? = some ⟨0, 0, none⟩ ∧ t.goto? 0 0 = some 1 ∧
      t.action 1 .semicolon = .shift 2 ∧ t.action 2 .eof = .reduce 1 ∧
      t.reductions[1]? = some ⟨0, 2, none⟩) (by with_unfolding_all decide)
  obtain ⟨⟨⟩, compatible⟩ := exists_of_toBool passes
  let s : Setup := ⟨t, {}, none⟩
  let u : Token := ⟨.semicolon, ";", 1, ⟨0, 1⟩, ⟨0, 2⟩⟩
  let v : Token := ⟨.whitespace, " ", 0, ⟨0, 0⟩, ⟨0, 1⟩⟩
  have tokens : Token.readAll " ;" = [v, u] := by with_unfolding_all decide
  let before : Config := ⟨[⟨1, .symbol, false, 0, []⟩], [u], [v], 0, [], 0, false, none⟩
  let c : Config := ⟨[⟨2, .symbol, false, 1, [leaf u]⟩, ⟨1, .extra, false, 0, [leaf v]⟩,
    ⟨1, .symbol, false, 0, []⟩], [], [], 2, [], 0, false, none⟩
  have first : s.step (.initial [v, u]) = .ok (.next before) :=
    step_reduce rfl rfl start ((reduce_of_goto empty goto).trans rfl)
  have second : s.step before = .ok (.next c) := step_shift rfl rfl shift rfl
  have reached : s.Reached [v, u] c := .tail (.single first) second
  obtain ⟨r, base, next, c', lands, step⟩ := (reductions_land compatible reached).2 1 reduces
  obtain rfl := Option.some.inj (row.symm.trans lands.known)
  exact ⟨t, c, built, compatible, tokens ▸ reached, rfl, base, next, c', lands, step⟩

/-! Reading tokens -/

theorem Reached.readable (readable : s.Readable (.initial tokens)) (reached : s.Reached tokens c) :
    s.Readable c :=
  readable.suffix (moves_rest_suffix reached.moves)

/-- Whether the next step takes a token, by a shift or by leaving it out. -/
inductive Takes (s : Setup) (c : Config) : Prop
  | shift {next : Nat} (reading : c.inserting = none)
      (action : s.table.action c.top c.settle.lookahead = .shift next)
  | skip (reading : c.inserting = none)
      (action : s.table.action c.top c.settle.lookahead = .error)
      (repair : s.chooseRepair c.settle c.settle.lookahead = .skip ∨
        s.chooseRepair c.settle c.settle.lookahead = .wrap 0)
      (inside : c.settle.lookahead ≠ .eof)

theorem lookahead_eq_eof (readable : s.Readable c) :
    c.lookahead = .eof ↔ c.rest = [] := by
  refine ⟨fun atEnd => ?_, fun empty => by rw [lookahead, empty]⟩
  cases front : c.rest with
  | nil => rfl
  | cons u us =>
    rw [lookahead, front] at atEnd
    exact absurd atEnd (readable.lexical u (by simp [front])).ne_eof

/-- The end of input cannot be shifted, with an old tree or without. -/
theorem advance_nil (next : Nat) (empty : c.rest = []) : s.advance c next = .error .noToken := by
  have shifts : Setup.shift c next = .error .noToken := by
    unfold Setup.shift
    simp only [rest_flush, empty]
    rfl
  unfold advance
  cases s.reuse with
  | none => exact shifts
  | some r =>
    rw [empty]
    exact shifts

/-- The one thing that fails in a parse of tokens of a text is to shift the end of input. -/
theorem step_error_iff (compatible : s.table.checkCompatible = .ok ())
    (readable : s.Readable (.initial tokens)) (reached : s.Reached tokens c) {f : Fault} :
    s.step c = .error f ↔ f = .noToken ∧ c.inserting = none ∧ c.settle.rest = [] ∧
      ∃ next, s.table.action c.top .eof = .shift next := by
  have formed := Table.wellFormed_of_compatible compatible
  have footed := reached.footed formed
  have settled := (reached.readable readable).suffix (rest_suffix_settle c)
  have reduces {c : Config} {p : Nat} {k : Kind} (footed : c.Footed s.table)
      (action : s.table.action c.top k = .reduce p) :
      ∃ y, (s.reduce c p k).map Step.next = .ok y := by
    obtain ⟨c', reduced, _⟩ := footed_reduce formed footed action
    exact ⟨_, by rw [reduced]; rfl⟩
  constructor
  · intro failed
    cases inserting : c.inserting with
    | some k =>
      simp only [step, inserting, insertStep] at failed
      split at failed
      · rename_i p action
        obtain ⟨y, made⟩ := reduces footed action
        rw [made] at failed
        cases failed
      all_goals cases failed
    | none =>
      simp only [step, inserting, settled.isTerminal_lookahead, Bool.not_true, Bool.false_eq_true,
        if_false] at failed
      split at failed
      · rename_i next action
        by_cases atEnd : c.settle.lookahead = .eof
        · have empty := (lookahead_eq_eof settled).1 atEnd
          rw [advance_nil next empty] at failed
          rw [atEnd, top_settle] at action
          exact ⟨(Except.error.inj failed).symm, rfl, empty, next, action⟩
        · obtain ⟨c', advanced⟩ := exists_advance settled atEnd next
          rw [advanced] at failed
          cases failed
      · rename_i p action
        obtain ⟨y, made⟩ := reduces footed.settle action
        rw [made] at failed
        cases failed
      · cases failed
      · obtain ⟨y, recovered⟩ := exists_recover settled
        rw [recovered] at failed
        cases failed
  · rintro ⟨rfl, inserting, empty, next, action⟩
    have atEnd := (lookahead_eq_eof settled).2 empty
    simp only [step, inserting, settled.isTerminal_lookahead, Bool.not_true, Bool.false_eq_true,
      if_false]
    rw [atEnd, top_settle, action]
    simp only [advance_nil next empty]
    rfl

theorem run_error {fuel : Nat} {f : Fault} (h : s.run fuel c = .error f)
    (reached : s.Reached tokens c) :
    f = .outOfFuel ∨ ∃ last, s.Reached tokens last ∧ s.step last = .error f := by
  induction fuel generalizing c with
  | zero => exact .inl (Except.error.inj h).symm
  | succ fuel ih =>
    unfold run at h
    cases stepped : s.step c with
    | error f' =>
      rw [stepped] at h
      exact .inr ⟨c, reached, Except.error.inj h ▸ stepped⟩
    | ok y =>
      rw [stepped] at h
      cases y with
      | next c' => exact ih h (reached.tail stepped)
      | accepted c' => cases h
      | gaveUp c' => cases h

end Setup

open Setup

/-- Where nothing is shifted at the end of input, no step of a parse fails. -/
theorem Parser.step_ne_error {p : Parser} (compatible : p.language.table.checkCompatible = .ok ())
    (ends : ∀ state next, p.language.table.action state .eof ≠ .shift next) {text : String}
    {c : Config} (reached : p.setup.Reached (Token.readAll text) c) (f : Fault) :
    p.setup.step c ≠ .error f := by
  intro failed
  have readable : p.setup.Readable (.initial (Token.readAll text)) :=
    ⟨fun _ => Token.isLexical_of_mem_readAll, (fun _ reuse => nomatch reuse)⟩
  obtain ⟨_, _, _, next, action⟩ := (step_error_iff compatible readable reached).1 failed
  exact ends _ _ action

theorem Parser.eq_outOfFuel_of_parse {p : Parser}
    (compatible : p.language.table.checkCompatible = .ok ())
    (ends : ∀ state next, p.language.table.action state .eof ≠ .shift next) {text : String}
    {f : Fault} (failed : p.parse text = .error f) : f = .outOfFuel := by
  unfold parse parseTokens runOn at failed
  cases ran : p.setup.run (p.setup.stepBound (Token.readAll text).length)
      (.initial (Token.readAll text)) with
  | error f' =>
    simp only [ran, bind, Except.bind, Except.error.injEq] at failed
    obtain rfl := failed
    rcases run_error ran .refl with is | ⟨last, reached, stepped⟩
    · exact is
    · exact absurd stepped (step_ne_error compatible ends reached _)
  | ok c => simp [ran, bind, Except.bind, pure, Except.pure] at failed

/-- Where a compatible table shifts nothing at the end of input, a parse of any text takes tokens
only where there are some, and no step of it fails. -/
theorem Parser.reads_inside {p : Parser} (compatible : p.language.table.checkCompatible = .ok ())
    (ends : ∀ state next, p.language.table.action state .eof ≠ .shift next) (text : String) :
    (∀ c, p.setup.Reached (Token.readAll text) c →
      (p.setup.Takes c → ∃ u rest, c.settle.rest = u :: rest) ∧ ∃ y, p.setup.step c = .ok y) ∧
        ∀ f, p.parse text = .error f → f = .outOfFuel := by
  refine ⟨fun c reached => ⟨fun takes => ?_, ?_⟩, fun f failed => ?_⟩
  · cases takes with
    | shift _ action =>
      exact exists_token fun atEnd => ends _ _ (atEnd ▸ action)
    | skip _ _ _ inside => exact exists_token inside
  · cases stepped : p.setup.step c with
    | error f => exact absurd stepped (step_ne_error compatible ends reached f)
    | ok y => exact ⟨y, rfl⟩
  · exact eq_outOfFuel_of_parse compatible ends failed

/-- No table that was built shifts the end of input. -/
theorem Parser.reads_inside_semicolons : ∃ t, Table.build .semicolons = .ok t ∧
    ∃ y, (Parser.mk ⟨"semicolons", t, 1⟩ {}).setup.step (.initial (Token.readAll ";")) = .ok y := by
  obtain ⟨t, built, passes⟩ := Table.exists_built (g := .semicolons)
    (P := fun t => t.checkCompatible.toBool = true) (by with_unfolding_all decide)
  obtain ⟨⟨⟩, compatible⟩ := exists_of_toBool passes
  have from_grammar := Table.build_ok built
  have ends (state next : Nat) : t.action state .eof ≠ .shift next := fun action =>
    Grammar.ne_eof_of_leads from_grammar.valid (Table.leads_of_shift from_grammar action) rfl
  exact ⟨t, built, ((reads_inside (p := ⟨⟨"semicolons", t, 1⟩, {}⟩) compatible ends ";").1 _ .refl).2⟩

/-! The check says nothing about the end of input -/

/-- A table with another action in one place. -/
def Table.withAction (t : Table) (state : Nat) (k : Kind) (a : Action) : Table :=
  { t with rows := t.rows.modify state fun row =>
      { row with actions := row.actions.setIfInBounds k.index a } }

/-- A table that passes the check and shifts the end of input in its start state. -/
theorem Parser.parse_shifting_end : ∃ t, Table.build .semicolons = .ok t ∧
    (t.withAction 0 .eof (.shift 0)).checkCompatible = .ok () ∧
      (Parser.mk ⟨"semicolons", t.withAction 0 .eof (.shift 0), 1⟩ {}).parse "" = .error .noToken := by
  obtain ⟨t, built, passes, fails⟩ := Table.exists_built (g := .semicolons)
    (P := fun t => (t.withAction 0 .eof (.shift 0)).checkCompatible.toBool = true ∧
      (match (Parser.mk ⟨"semicolons", t.withAction 0 .eof (.shift 0), 1⟩ {}).parse "" with
      | .error f => decide (f = .noToken)
      | .ok _ => false) = true) (by with_unfolding_all decide)
  obtain ⟨⟨⟩, passed⟩ := exists_of_toBool passes
  refine ⟨t, built, passed, ?_⟩
  split at fails
  · rename_i f failed
    rw [failed, of_decide_eq_true fails]
  · cases fails

end ShaderTree
