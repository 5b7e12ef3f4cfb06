import ShaderTree.Proofs.Parser.Bound

/-! Parses without errors. As long as nothing is reported the parser does what the plain machine of the
table does on the tokens other than blanks and comments; so its options do not matter, and a parse
that reports nothing ends where the machine accepts. -/
namespace ShaderTree

/-- Kinds of the tokens that a table sees. -/
def Token.words (tokens : List Token) : List Kind := (tokens.map (·.kind)).filter (!·.isTrivia)

/-- The plain machine accepts the kinds and the end of input behind them. -/
def Table.Takes (t : Table) (words : List Kind) : Prop :=
  ∃ fuel ps, t.drive fuel [0] (words ++ [.eof]) = some ps

theorem Grammar.RightDerives.eq_nil {g : Grammar} {ps : List Nat} {ys : List Symbol}
    (derives : g.RightDerives ps [] ys) : ys = [] := by
  generalize nothing : ([] : List Symbol) = xs at derives
  cases derives with
  | refl => rfl
  | step => simp at nothing

namespace Config

variable {c : Config}

/-- What is still to be read. -/
def unread (c : Config) : List Kind := Token.words c.rest ++ [.eof]

theorem words_dropWhile (tokens : List Token) :
    Token.words (tokens.dropWhile (·.kind.isTrivia)) = Token.words tokens := by
  induction tokens with
  | nil => rfl
  | cons t ts ih =>
    cases blank : t.kind.isTrivia with
    | true => simpa [Token.words, blank] using ih
    | false => rw [List.dropWhile_cons_of_neg (by simp [blank])]

theorem unread_settle (c : Config) : c.settle.unread = c.unread :=
  congrArg (· ++ [Kind.eof]) (words_dropWhile c.rest)

/-- The next token is the first that is unread. -/
theorem unread_eq (c : Config) : ∃ later, c.unread = c.settle.lookahead :: later := by
  rw [← unread_settle]
  have text := isTrivia_lookahead_settle c
  unfold unread lookahead at *
  cases front : c.settle.rest with
  | nil => exact ⟨[], rfl⟩
  | cons t ts =>
    rw [front] at text
    exact ⟨Token.words ts ++ [.eof], by simp [Token.words, show t.kind.isTrivia = false from text]⟩

end Config

namespace Setup

open Config

variable {g : Grammar} {s : Setup} {c c' last : Config} {tokens : List Token}

/-- Where the table acts, the options are not asked. -/
theorem step_options {t : Table} (a b : Options) (reading : c.inserting = none)
    (acts : t.action c.top c.settle.lookahead ≠ .error) :
    (Setup.mk t a none).step c = (Setup.mk t b none).step c := by
  unfold step
  simp only [reading, top_settle]
  split
  · rfl
  · split
    · rfl
    · rfl
    · rfl
    · rename_i refused
      exact absurd refused acts

/-- What the plain machine reads and where it stands. -/
theorem front {k : Kind} {top : Nat} {below : List Nat} {rest : List Kind} (spelled : c.Spelled g)
    (same : c.states = top :: below) (ahead : c.unread = k :: rest) :
    c.top = top ∧ c.settle.lookahead = k := by
  obtain ⟨_, states⟩ := spelled.states_eq
  obtain ⟨_, unread⟩ := unread_eq c
  exact ⟨(List.cons.inj (states.symm.trans same)).1, (List.cons.inj (unread.symm.trans ahead)).1⟩

/-- The state a shift leads to. -/
theorem shift_frame {next : Nat} (shifted : Setup.shift c next = .ok c') :
    c'.states = next :: c.states ∧ c'.inserting = c.inserting ∧ c'.diagnostics = c.diagnostics ∧
      ∃ u, c.rest = u :: c'.rest := by
  obtain ⟨u, rest, front, rfl⟩ := shift_ok shifted
  refine ⟨(statesOf_symbol rfl).trans (congrArg _ (states_flush c)), ?_, ?_, u, front⟩
  · rw [flush_eq]
  · rw [flush_eq]

/-- A shift reads one kind. -/
theorem unread_shift {next : Nat} (shifted : Setup.shift c.settle next = .ok c') :
    c.unread = c.settle.lookahead :: c'.unread := by
  obtain ⟨_, _, _, u, front⟩ := shift_frame shifted
  have text := isTrivia_lookahead_settle c
  have ahead : c.settle.lookahead = u.kind := by rw [lookahead, front]
  rw [ahead] at text ⊢
  rw [← unread_settle, unread, unread, front]
  simp [Token.words, text]

theorem diagnostics_reduce {p : Nat} {k : Kind} (h : s.reduce c p k = .ok c') :
    c'.diagnostics = c.diagnostics := by
  obtain ⟨r, trailing, popped, below, next, _, _, _, _, rfl⟩ := reduce_ok h
  rfl

/-- A reduction reads nothing. -/
theorem unread_reduce {p : Nat} {k : Kind} (h : s.reduce c.settle p k = .ok c') :
    c'.unread = c.unread := by
  rw [← unread_settle c, unread, (reduce_frame h).1]
  rfl

/-- Where the plain machine accepts, the parser ends without reporting anything more, whatever its
options. -/
theorem exists_run_of_runs {t : Table} (built : t.BuiltFrom g) {k : Kind} {top : Nat}
    {below : List Nat} {rest : List Kind} {states : List Nat} {input : List Kind} {ps : List Nat}
    (runs : t.Runs (top :: below) (k :: rest) states input ps) (accept : t.action top k = .accept)
    (spelled : c.Spelled g) (reading : c.inserting = none) (same : c.states = states)
    (ahead : c.unread = input) :
    ∃ fuel last, last.diagnostics = c.diagnostics ∧
      ∀ options, (Setup.mk t options none).run fuel c = .ok last := by
  induction runs generalizing c with
  | refl =>
    obtain ⟨rfl, rfl⟩ := front spelled same ahead
    have acts : t.action c.top c.settle.lookahead ≠ .error := by simp [accept]
    have terminal := (Table.exists_of_action built acts).2
    refine ⟨1, c.settle, rfl, fun options => ?_⟩
    rw [run, step_accepted reading terminal accept]
  | @shift top next below ps k input action later ih =>
    obtain ⟨rfl, rfl⟩ := front spelled same ahead
    have acts : t.action c.top c.settle.lookahead ≠ .error := by simp [action]
    have terminal := (Table.exists_of_action built acts).2
    have inside := Grammar.ne_eof_of_leads built.valid (Table.leads_of_shift built action)
    obtain ⟨c', shifted⟩ := exists_shift inside next
    obtain ⟨states, inserting, diagnostics, _⟩ := shift_frame shifted
    have read := unread_shift shifted
    obtain ⟨fuel, last, reported, ran⟩ := ih (spelled_shift built spelled.settle action shifted)
      (inserting.trans reading) (states.trans (congrArg _ same))
      (List.cons.inj (read.symm.trans ahead)).2
    refine ⟨fuel + 1, last, reported.trans diagnostics, fun options => ?_⟩
    have advanced : (Setup.mk t options none).advance c.settle next = .ok c' := shifted
    rw [run, step_shift reading terminal action advanced]
    exact ran options
  | @reduce top p below after ps k input action reduced later ih =>
    obtain ⟨rfl, rfl⟩ := front spelled same ahead
    have acts : t.action c.top c.settle.lookahead ≠ .error := by simp [action]
    have terminal := (Table.exists_of_action built acts).2
    obtain ⟨c', made, states, spelled'⟩ := exists_reduce (s := ⟨t, {}, none⟩) built rfl spelled.settle
      (k := c.settle.lookahead) action
    have after' : c'.states = after :=
      Option.some.inj (states.symm.trans ((congrArg _ same).trans reduced))
    obtain ⟨fuel, last, reported, ran⟩ := ih spelled' ((reduce_frame made).2.1.trans reading) after'
      ((unread_reduce made).trans ahead)
    refine ⟨fuel + 1, last, reported.trans (diagnostics_reduce (c := c.settle) made), fun options => ?_⟩
    rw [run, step_options options {} reading acts, step_reduce reading terminal action made]
    exact ran options

/-- As long as nothing is reported, the plain machine comes to the same states. -/
def Silent (s : Setup) (input : List Kind) (c : Config) : Prop :=
  c.diagnostics = [] → c.inserting = none → ∃ ps, s.table.Runs c.states c.unread [0] input ps

theorem reportSkipped_ne_nil (c : Config) (u : Token) (widen : Bool) (hint : Option String) :
    reportSkipped c u widen hint ≠ [] := by
  unfold reportSkipped
  split
  · simp
  · split
    · split <;> simp
    · simp

/-- What is pretended is not given up again. -/
theorem Pretending.shifts (built : s.table.BuiltFrom g) (pretending : s.Pretending c)
    (spelled : c.Spelled g) {k : Kind} (inserting : c.inserting = some k) :
    s.table.action c.top k ≠ .accept ∧ s.table.action c.top k ≠ .error := by
  obtain ⟨closer, _, fuel, taken⟩ := pretending k inserting
  obtain ⟨below, states⟩ := spelled.states_eq
  rw [states] at taken
  refine ⟨fun accept => ?_, (Table.simulateWith_cases taken).1⟩
  obtain rfl := built.eof_of_accept accept
  exact absurd closer (by decide)

theorem Move.silent {input : List Kind} (built : s.table.BuiltFrom g) (fresh : s.reuse = none)
    (spelled : c.Spelled g) (pretending : s.Pretending c) (silent : s.Silent input c)
    (move : Move s c c') : s.Silent input c' := by
  obtain ⟨below, states⟩ := spelled.states_eq
  obtain ⟨later, unread⟩ := unread_eq c
  cases move with
  | insertReduce inserting _ reduced =>
    intro _ reading
    cases inserting.symm.trans ((reduce_frame reduced).2.1.symm.trans reading)
  | insertShift => exact fun reported => nomatch reported
  | insertStop inserting stop =>
    obtain ⟨notAccept, notError⟩ := pretending.shifts built spelled inserting
    rcases stop with stop | stop
    · exact absurd stop notAccept
    · exact absurd stop notError
  | @reduce p _ reading _ action reduced =>
    intro reported _
    obtain ⟨ps, runs⟩ := silent ((diagnostics_reduce reduced).symm.trans reported) reading
    obtain ⟨made, _⟩ := spelled_reduce built rfl spelled.settle action reduced
    rw [states, unread] at runs
    rw [show c.settle.states = c.states from rfl, states] at made
    exact ⟨_, runs.trans (.reduce action made (by rw [unread_reduce reduced, unread]; exact .refl))⟩
  | @shift next _ reading _ action shifted =>
    intro reported _
    obtain ⟨after, _, diagnostics, _⟩ := shift_frame shifted
    obtain ⟨ps, runs⟩ := silent (diagnostics.symm.trans reported) reading
    have read := unread_shift shifted
    rw [states, read] at runs
    rw [show c.settle.states = c.states from rfl, states] at after
    exact ⟨_, runs.trans (.shift action (by rw [after]; exact .refl))⟩
  | takeOver _ _ _ reuse => cases fresh.symm.trans reuse
  | insert => exact fun _ reading => nomatch reading
  | wrap => exact fun reported => nomatch reported
  | skip _ _ _ _ _ skipped =>
    obtain ⟨u, rest, _, rfl⟩ := skip_ok skipped
    exact fun reported => absurd reported (reportSkipped_ne_nil _ _ _ _)

/-- Where nothing was reported the parser is where the plain machine is. -/
theorem Reached.runs (built : s.table.BuiltFrom g) (fresh : s.reuse = none)
    (reached : s.Reached tokens c) (quiet : c.diagnostics = []) (reading : c.inserting = none) :
    ∃ ps, s.table.Runs c.states c.unread [0] (Token.words tokens ++ [.eof]) ps := by
  have moves := reached.moves
  clear reached
  suffices invariant : c.Spelled g ∧ s.Pretending c ∧
      s.Silent (Token.words tokens ++ [.eof]) c from invariant.2.2 quiet reading
  clear quiet reading
  induction moves with
  | refl => exact ⟨spelled_initial tokens, pretending_of_reading rfl, fun _ _ => ⟨[], .refl⟩⟩
  | tail _ move ih =>
    obtain ⟨spelled, pretending, silent⟩ := ih
    exact ⟨move.spelled_of_built built spelled, move.pretending built spelled pretending,
      move.silent built fresh spelled pretending silent⟩

theorem report_eq_nil : Setup.report c = [] ↔ c.diagnostics = [] := by
  unfold report
  rw [← List.length_eq_zero_iff, List.length_mergeSort, List.length_reverse,
    List.length_eq_zero_iff]

/-- A parse that accepts and reports nothing is an acceptance of the plain machine. -/
theorem Reached.takes (built : s.table.BuiltFrom g) (fresh : s.reuse = none)
    (reached : s.Reached tokens c) (stepped : s.step c = .ok (.accepted last))
    (quiet : last.diagnostics = []) : s.table.Takes (Token.words tokens) := by
  obtain rfl := settle_of_last (.inl stepped)
  obtain ⟨reading, accept⟩ := accept_of_accepted stepped
  obtain ⟨below, states⟩ := (reached.spelled_of_built built).states_eq
  obtain ⟨later, unread⟩ := unread_eq c
  obtain ⟨ps, runs⟩ := reached.runs built fresh quiet reading
  rw [states, unread] at runs
  obtain ⟨fuel, driven⟩ := runs.drive accept
  exact ⟨fuel, ps, driven⟩

/-- A parse that gives up has reported something, if there was anything to read. -/
theorem Reached.reports (built : s.table.BuiltFrom g) (fresh : s.reuse = none)
    (lexical : ∀ u ∈ tokens, u.kind.IsLexical) (text : Token.words tokens ≠ [])
    (reached : s.Reached tokens c) (stepped : s.step c = .ok (.gaveUp last)) :
    last.diagnostics ≠ [] := by
  intro quiet
  rcases step_cases stepped with ⟨_, is, _⟩ | ⟨c', is, final⟩
  · cases is
  · obtain rfl : last = c' := by rcases is with is | is <;> cases is; rfl
    cases final with
    | accepted reading terminal action =>
      cases (step_accepted reading terminal action).symm.trans stepped
    | gaveUp reading atEnd action repair =>
      rw [atEnd] at action repair
      obtain ⟨ps, runs⟩ := reached.runs built fresh quiet reading
      obtain ⟨path, read, spells, whole, derives⟩ := Grammar.rightDerives_of_runs built runs .start
      have short : c.states.length ≤ 1 := Repair.length_of_choose repair
      have empty : path = [] := by
        rw [spells.length] at short
        exact List.length_eq_zero_iff.1 (Nat.le_zero.1 (Nat.le_of_succ_le_succ short))
      subst empty
      have nothing : read = [] := List.map_eq_nil_iff.1 (Grammar.RightDerives.eq_nil derives)
      subst nothing
      obtain ⟨later, unread⟩ := unread_eq c
      rw [unread, atEnd, List.nil_append] at whole
      obtain ⟨k, ks, front⟩ := List.exists_cons_of_ne_nil text
      rw [front] at whole
      obtain rfl := (List.cons.inj whole).1
      have member : Kind.eof ∈ Token.words tokens := by simp [front]
      obtain ⟨u, inside, eof⟩ := List.mem_map.1 (List.mem_of_mem_filter member)
      have known := lexical u inside
      rw [eof] at known
      exact absurd known (by decide)

/-- A run without a report is an acceptance of the plain machine, if there is something to read or the
table acts on the end of input in its start state. -/
theorem takes_of_run (built : s.table.BuiltFrom g) (fresh : s.reuse = none)
    (lexical : ∀ u ∈ tokens, u.kind.IsLexical)
    (ends : Token.words tokens ≠ [] ∨ s.table.action 0 .eof ≠ .error) {fuel : Nat}
    (ran : s.run fuel (.initial tokens) = .ok last) (quiet : last.diagnostics = []) :
    s.table.Takes (Token.words tokens) := by
  obtain ⟨c, reached, accepted | gaveUp⟩ := exists_last .refl ran
  · exact reached.takes built fresh accepted quiet
  · rcases ends with text | acts
    · exact absurd quiet (reached.reports built fresh lexical text gaveUp)
    · exact absurd gaveUp (step_ne_gaveUp (reached.spelled_of_built built) acts)

end Setup

/-- A program that is one name. -/
def Grammar.oneName : Grammar :=
  { nonterminals := #[.hidden "program"]
    levels := #[]
    productions := #[⟨0, [.terminal .ident], none⟩]
    start := 0 }

namespace Parser

variable {g : Grammar} {p : Parser} {text : String} {tokens : List Token} {d : Document}

/-- A document comes from a run to the end. -/
theorem exists_run_of_parseTokens (parsed : p.parseTokens text tokens = .ok d) :
    ∃ last, p.setup.run (p.setup.stepBound tokens.length) (.initial tokens) = .ok last ∧
      d.root = Setup.root last ∧ d.diagnostics = Setup.report last := by
  unfold parseTokens runOn at parsed
  cases ran : p.setup.run (p.setup.stepBound tokens.length) (.initial tokens) with
  | error f =>
    simp only [ran] at parsed
    cases parsed
  | ok last =>
    simp only [ran] at parsed
    obtain rfl := Except.ok.inj parsed
    exact ⟨last, rfl, rfl, rfl⟩

/-- Runs that end come to the same end. -/
theorem parseTokens_of_run {fuel : Nat} {last : Config}
    (parsed : p.parseTokens text tokens = .ok d)
    (ran : p.setup.run fuel (.initial tokens) = .ok last) :
    d = { root := Setup.root last, text, diagnostics := Setup.report last
          table := p.language.identity } := by
  obtain ⟨last', ran', _⟩ := exists_run_of_parseTokens parsed
  have most := Setup.run_of_le (Nat.le_max_left fuel (p.setup.stepBound tokens.length)) ran
  have most' := Setup.run_of_le (Nat.le_max_right fuel (p.setup.stepBound tokens.length)) ran'
  obtain rfl := Except.ok.inj (most.symm.trans most')
  rw [parseTokens, runOn, ran'] at parsed
  exact (Except.ok.inj parsed).symm

/-- Giving up is reported wherever the text has a token other than blanks and comments, whatever the
grammar and the options; so such a text without errors is one that the table accepts. -/
theorem gaveUp_reports (built : Table.build g = .ok p.language.table)
    (some : Token.words (Token.readAll text) ≠ []) :
    (∀ c last, p.setup.Reached (Token.readAll text) c → p.setup.step c = .ok (.gaveUp last) →
      Setup.report last ≠ []) ∧
    ∀ d, p.parse text = .ok d → d.diagnostics = [] →
      p.language.table.Takes (Token.words (Token.readAll text)) := by
  have parts := Table.build_ok built
  have lexical : ∀ u ∈ Token.readAll text, u.kind.IsLexical := fun _ => Token.isLexical_of_mem_readAll
  refine ⟨fun c last reached gaveUp quiet => ?_, fun d parsed quiet => ?_⟩
  · exact reached.reports (s := p.setup) parts rfl lexical some gaveUp (Setup.report_eq_nil.1 quiet)
  · obtain ⟨last, ran, _, diagnostics⟩ := exists_run_of_parseTokens parsed
    rw [diagnostics] at quiet
    exact Setup.takes_of_run (s := p.setup) parts rfl lexical (.inl some) ran
      (Setup.report_eq_nil.1 quiet)

/-- A semicolon is left out, and then the parse gives up. -/
theorem gaveUp_reports_oneName : ∃ p : Parser, Table.build .oneName = .ok p.language.table ∧
    ∃ c last, p.setup.Reached (Token.readAll ";") c ∧ p.setup.step c = .ok (.gaveUp last) ∧
      Setup.report last ≠ [] := by
  obtain ⟨t, built, ends⟩ := Table.exists_built (g := .oneName)
    (P := fun t => ((Setup.mk t {} none).run 9 (.initial (Token.readAll ";"))).toOption.any fun c =>
      decide (t.action c.top c.settle.lookahead ≠ .accept)) (by with_unfolding_all decide)
  let p : Parser := ⟨⟨"one name", t, 0⟩, {}⟩
  have some : Token.words (Token.readAll ";") ≠ [] := by with_unfolding_all decide
  cases ran : (Setup.mk t {} none).run 9 (.initial (Token.readAll ";")) with
  | error f =>
    rw [ran] at ends
    cases ends
  | ok last =>
    rw [ran] at ends
    obtain ⟨c, reached, accepted | gaveUp⟩ := Setup.exists_last .refl ran
    · obtain ⟨_, accept⟩ := Setup.accept_of_accepted accepted
      obtain rfl := Setup.settle_of_last (.inl accepted)
      have ahead : c.settle.settle.lookahead = c.settle.lookahead := Setup.lookahead_settle_eq rfl
      have refuses : t.action c.top c.settle.settle.lookahead ≠ .accept := of_decide_eq_true ends
      rw [ahead] at refuses
      exact absurd accept refuses
    · exact ⟨p, built, c, last, reached, gaveUp,
        (gaveUp_reports (p := p) built some).1 c last reached gaveUp⟩

/-- The end of input alone is refused, and the parse gives up without a word. -/
theorem parse_oneName_silent : ∃ p : Parser, Table.build .oneName = .ok p.language.table ∧
    (∃ last, p.setup.step (.initial (Token.readAll "")) = .ok (.gaveUp last)) ∧
    (∃ d, p.parse "" = .ok d ∧ d.diagnostics = []) ∧
    ¬ p.language.table.Takes (Token.words (Token.readAll "")) := by
  obtain ⟨t, built, refused, repair⟩ := Table.exists_built (g := .oneName) (P := fun t =>
    t.action 0 .eof = .error ∧ (Setup.mk t {} none).chooseRepair (Config.initial []).settle .eof =
      .wrap 0) (by with_unfolding_all decide)
  let p : Parser := ⟨⟨"one name", t, 0⟩, {}⟩
  have none : Token.readAll "" = [] := by with_unfolding_all decide
  have gaveUp : p.setup.step (.initial []) = .ok (.gaveUp (Config.initial []).settle) :=
    Setup.step_gaveUp rfl rfl refused (.inr repair)
  have ran : p.setup.run 1 (.initial []) = .ok (Config.initial []).settle := by
    rw [Setup.run, gaveUp]
  have parsed : ∃ d, p.parse "" = .ok d ∧ d.diagnostics = [] := by
    have enough : 1 ≤ p.setup.stepBound 0 := Nat.le_of_succ_le (Setup.two_le_stepBound _ _)
    rw [parse, parseTokens, none, runOn, List.length_nil, Setup.run_of_le enough ran]
    exact ⟨_, rfl, Setup.report_eq_nil.2 rfl⟩
  refine ⟨p, built, ⟨_, none ▸ gaveUp⟩, parsed, ?_⟩
  rintro ⟨fuel, ps, driven⟩
  rw [none] at driven
  cases fuel with
  | zero => cases driven
  | succ fuel =>
    have stuck : t.drive (fuel + 1) [0] [.eof] = Option.none := by simp [Table.drive, refused]
    cases stuck.symm.trans driven

end Parser

namespace Metal

variable {l : Language} {text : String}

/-- The plain machine accepts a text without errors. -/
theorem takes_of_parse (built : table = .ok l.table) {o : Options} {d : Document}
    (parsed : (Parser.mk l o).parse text = .ok d) (quiet : d.diagnostics = []) :
    l.table.Takes (Token.words (Token.readAll text)) := by
  have acts : l.table.action 0 .eof ≠ .error := by
    rw [action_start_eof built]
    simp
  obtain ⟨last, ran, _, diagnostics⟩ := Parser.exists_run_of_parseTokens parsed
  rw [diagnostics] at quiet
  exact Setup.takes_of_run (s := (Parser.mk l o).setup) (Table.build_ok built) rfl
    (fun _ => Token.isLexical_of_mem_readAll) (.inr acts) ran (Setup.report_eq_nil.1 quiet)

/-- A text that the plain machine accepts has one document under all options, without errors. -/
theorem exists_parse_of_takes (built : table = .ok l.table)
    (takes : l.table.Takes (Token.words (Token.readAll text))) :
    ∃ d : Document, d.diagnostics = [] ∧ ∀ o, (Parser.mk l o).parse text = .ok d := by
  obtain ⟨fuel, ps, driven⟩ := takes
  obtain ⟨top, below, k, rest, runs, accept⟩ := Table.drive_eq_some driven
  obtain ⟨fuel, last, silent, ran⟩ := Setup.exists_run_of_runs
    (c := .initial (Token.readAll text)) (Table.build_ok built) runs accept
    (Config.spelled_initial _) rfl rfl rfl
  refine ⟨⟨Setup.root last, text, Setup.report last, l.identity⟩, Setup.report_eq_nil.2 silent,
    fun o => ?_⟩
  obtain ⟨d, parsed⟩ := exists_parseTokens (p := ⟨l, o⟩) built
    (fun _ => Token.isLexical_of_mem_readAll) text
  obtain rfl := Parser.parseTokens_of_run parsed (ran o)
  exact parsed

end Metal

end ShaderTree
