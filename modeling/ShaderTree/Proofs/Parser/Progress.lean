import ShaderTree.Proofs.Parser.Termination
import ShaderTree.Proofs.Table.EndOfInput

/-! Parses return. No step fails on tokens of a text, so a parse that has no endless moves ends with
a document; without cycles and hidden left recursion it has none. -/
namespace ShaderTree

/-- Tokens of the new text come from inside the old one. -/
def Reuse.Covers (r : Reuse) (tokens : List Token) : Prop :=
  ∀ u ∈ tokens, ∃ origin, r.map.toOld? u.start = .ok origin ∧ ∀ offset ∈ origin, offset ≤ r.length

theorem Reuse.exists_find? {r : Reuse} {tokens : List Token} (covers : r.Covers tokens)
    (gotoKind : Kind → Option Nat) (top : Nat) : ∃ found, r.find? gotoKind top tokens = .ok found := by
  cases tokens with
  | nil => exact ⟨none, rfl⟩
  | cons u us =>
    obtain ⟨origin, found, inside⟩ := covers u (.head _)
    obtain ⟨nodes, known⟩ : ∃ nodes, r.candidates u.start = .ok nodes := by
      unfold candidates
      rw [found]
      cases origin with
      | none => exact ⟨_, rfl⟩
      | some offset => exact ⟨_, if_neg (Nat.not_lt.2 (inside offset rfl))⟩
    unfold find?
    simp only [known]
    exact ⟨_, rfl⟩

namespace Setup

open Config

variable {g : Grammar} {s : Setup} {c c' : Config}

/-- What a parse needs from its input in order not to fail. -/
structure Readable (s : Setup) (c : Config) : Prop where
  lexical : ∀ u ∈ c.rest, u.kind.IsLexical
  covers : ∀ r, s.reuse = some r → r.Covers c.rest

theorem Readable.suffix (readable : s.Readable c) (suffix : c'.rest <:+ c.rest) : s.Readable c' :=
  ⟨fun u member => readable.lexical u (suffix.subset member),
    fun r reuse u member => readable.covers r reuse u (suffix.subset member)⟩

theorem Readable.isTerminal_lookahead (readable : s.Readable c) : c.lookahead.isTerminal = true := by
  unfold lookahead
  cases front : c.rest with
  | nil => decide
  | cons u us => exact (readable.lexical u (by simp [front])).isTerminal

/-- Where the end of input is not next there is a token. -/
theorem exists_token (inside : c.lookahead ≠ .eof) : ∃ u rest, c.rest = u :: rest := by
  cases front : c.rest with
  | nil => exact absurd (by rw [lookahead, front]) inside
  | cons u us => exact ⟨u, us, rfl⟩

theorem exists_shift (inside : c.lookahead ≠ .eof) (next : Nat) :
    ∃ c', Setup.shift c next = .ok c' := by
  obtain ⟨u, rest, front⟩ := exists_token inside
  unfold Setup.shift
  simp only [rest_flush, front]
  exact ⟨_, rfl⟩

theorem exists_advance_of_covers (covers : ∀ r, s.reuse = some r → r.Covers c.rest)
    (inside : c.lookahead ≠ .eof) (next : Nat) : ∃ c', s.advance c next = .ok c' := by
  have shifts := exists_shift inside next
  unfold advance
  cases reuse : s.reuse with
  | none => exact shifts
  | some r =>
    obtain ⟨found, finds⟩ := Reuse.exists_find? (covers r reuse) (s.gotoKind c.top) c.top
    dsimp only
    rw [finds]
    cases found with
    | none => exact shifts
    | some found => exact ⟨_, rfl⟩

theorem exists_advance (readable : s.Readable c) (inside : c.lookahead ≠ .eof) (next : Nat) :
    ∃ c', s.advance c next = .ok c' :=
  exists_advance_of_covers readable.covers inside next

theorem Readable.isTerminal_upcoming (readable : s.Readable c) (window : Nat) :
    ∀ k ∈ c.upcoming window, k.isTerminal = true := by
  have kinds : ∀ k ∈ (((c.rest.drop 1).map (·.kind)).filter (!·.isTrivia)).take window,
      k.isTerminal = true := by
    intro k member
    obtain ⟨u, behind, rfl⟩ := List.mem_map.1 (List.mem_of_mem_filter (List.mem_of_mem_take member))
    exact (readable.lexical u (List.mem_of_mem_drop behind)).isTerminal
  intro k member
  unfold upcoming at member
  dsimp only at member
  split at member
  · rcases List.mem_append.mp member with member | member
    · exact kinds k member
    · rw [List.mem_singleton.1 member]
      decide
  · exact kinds k member

theorem not_asksForNode (readable : s.Readable c) (lookahead : Kind) :
    s.asksForNode c lookahead = false := by
  unfold asksForNode
  split
  · rename_i k found
    rw [readable.isTerminal_upcoming _ k (List.mem_of_find?_eq_some found), Bool.not_true,
      Bool.and_false]
  · exact Bool.and_false _

theorem exists_recover (readable : s.Readable c) : ∃ y, s.recover c c.lookahead = .ok y := by
  unfold recover
  split
  · exact ⟨_, rfl⟩
  · rw [not_asksForNode readable, if_neg Bool.false_ne_true]
    split
    · exact ⟨_, rfl⟩
    · split
      · exact ⟨_, rfl⟩
      · rename_i inside
        obtain ⟨u, rest, front⟩ := exists_token inside
        unfold skip
        rw [front]
        exact ⟨_, rfl⟩

theorem exists_step (halting : s.Halting g) (spelled : c.Spelled g) (readable : s.Readable c) :
    ∃ y, s.step c = .ok y := by
  have settled := readable.suffix (rest_suffix_settle c)
  have reduces {c : Config} {p : Nat} {k : Kind} (spelled : c.Spelled g)
      (action : s.table.action c.top k = .reduce p) :
      ∃ y, (s.reduce c p k).map Step.next = .ok y := by
    obtain ⟨c', reduced, _⟩ := exists_reduce halting.built rfl spelled action
    exact ⟨_, by rw [reduced]; rfl⟩
  unfold step
  split
  · unfold insertStep
    split
    · rename_i action
      exact reduces spelled action
    · exact ⟨_, rfl⟩
    · exact ⟨_, rfl⟩
    · exact ⟨_, rfl⟩
  · dsimp only
    rw [settled.isTerminal_lookahead, Bool.not_true, if_neg Bool.false_ne_true]
    split
    · rename_i next action
      have inside := Grammar.ne_eof_of_leads halting.built.valid
        (Table.leads_of_shift halting.built action)
      obtain ⟨c', advanced⟩ := exists_advance settled inside next
      exact ⟨_, by rw [advanced]; rfl⟩
    · rename_i action
      exact reduces spelled.settle action
    · exact ⟨_, rfl⟩
    · exact exists_recover settled

/-- A parse returns. -/
theorem exists_run (halting : s.Halting g) (spelled : c.Spelled g) (readable : s.Readable c)
    (finishes : s.Finishes c) : ∃ fuel last, s.run fuel c = .ok last := by
  induction finishes with
  | intro c _ ih =>
    obtain ⟨y, stepped⟩ := exists_step halting spelled readable
    rcases step_cases stepped with ⟨c', rfl, move⟩ | ⟨c', rfl | rfl, final⟩
    · obtain ⟨fuel, last, ran⟩ :=
        ih c' move (move.spelled halting spelled) (readable.suffix move.rest_suffix)
      exact ⟨fuel + 1, last, by rw [run, stepped]; exact ran⟩
    · exact ⟨1, c', by rw [run, stepped]⟩
    · exact ⟨1, c', by rw [run, stepped]⟩

end Setup

/-- Nodes of a document's tree that are offered for reuse have leaves. -/
theorem Reuse.hasLeaves_ofDocument (old : Document) (map : EditMap) :
    (ofDocument old map).HasLeaves := by
  rintro ⟨start, node⟩ member nothing
  have size := of_decide_eq_true (List.mem_filter.1 member).2
  rw [Tree.size_eq, nothing] at size
  exact size rfl

/-- What a map of edits describes covers the tokens of the new text. -/
theorem Reuse.covers_ofDocument {old : Document} {map : EditMap} {newText : String}
    (tokenized : Relex.IsTokenized old)
    (describes : map.Describes newText.toList old.text.toList) :
    (ofDocument old map).Covers (Token.readAll newText) := by
  intro u member
  have inside := Token.start_le_of_mem_readAll member
  have found := describes.toOld?_eq inside
  refine ⟨_, found, fun offset is => ?_⟩
  have inside := describes.toOld?_le inside (found.trans (congrArg _ is))
  change offset ≤ old.root.size
  rwa [Tree.size_eq, Relex.chars_leaves tokenized]

namespace Parser

variable {g : Grammar} {p : Parser}

/-- The reductions of a built table end, and so do parses and reparses, with a result: unless the
grammar has a cycle or hidden left recursion, or the end of input on an empty stack is neither
refused at once nor taken. -/
theorem returns_of_acyclic (built : Table.build g = .ok p.language.table) (acyclic : g.Acyclic)
    (noHidden : g.NoHiddenRecursion) (atEnd : p.language.table.action 0 .eof = .error ∨
      p.language.table.accepts [0] .eof = true) :
    (∀ text, ∃ fuel last, p.setup.run fuel (.initial (Token.readAll text)) = .ok last) ∧
    (∀ text old changes edits newText, Parsed Language.IsBuilt text old →
      Change.applyAll text changes = .ok (edits, newText) →
        ∃ map, EditMap.ofEdits? edits text.utf8ByteSize = .ok (some map) ∧ ∃ fuel last,
          (p.setup (some (.ofDocument old map))).run fuel (.initial (Token.readAll newText)) =
            .ok last) ∧
    ∀ path states k, g.Spells path states → p.language.table.Halts k states := by
  have parts := Table.build_ok built
  have halting {reuse : Option Reuse} (leaves : ∀ r, reuse = some r → r.HasLeaves) :
      (p.setup reuse).Halting g :=
    ⟨parts, fun k spells => spells.halts acyclic noHidden parts, atEnd, leaves⟩
  have returns {reuse : Option Reuse} {text : String}
      (leaves : ∀ r, reuse = some r → r.HasLeaves)
      (covers : ∀ r, reuse = some r → r.Covers (Token.readAll text)) :
      ∃ fuel last, (p.setup reuse).run fuel (.initial (Token.readAll text)) = .ok last :=
    have start := Config.spelled_initial (Token.readAll text)
    Setup.exists_run (halting leaves) start ⟨fun _ => Token.isLexical_of_mem_readAll, covers⟩
      (Setup.finishes (halting leaves) start rfl)
  refine ⟨fun text => returns (by simp) (by simp), ?_, fun path states k spells =>
    spells.halts acyclic noHidden parts⟩
  intro text old changes edits newText parsed changed
  obtain ⟨rfl, tokenized⟩ := parsed.isTokenized
  obtain ⟨map, found, describes⟩ := EditMap.ofEdits?_changes changed
  refine ⟨map, found, returns ?_ ?_⟩
  · rintro r ⟨⟩
    exact Reuse.hasLeaves_ofDocument old map
  · rintro r ⟨⟩
    exact Reuse.covers_ofDocument tokenized describes

end Parser

/-! Single steps, and the parse of the empty text -/

theorem Setup.step_reduce {s : Setup} {c c' : Config} {p : Nat} (reading : c.inserting = none)
    (terminal : c.settle.lookahead.isTerminal = true)
    (action : s.table.action c.top c.settle.lookahead = .reduce p)
    (reduced : s.reduce c.settle p c.settle.lookahead = .ok c') : s.step c = .ok (.next c') := by
  unfold step
  simp only [reading, terminal, Config.top_settle, action, reduced, Bool.not_true,
    Bool.false_eq_true, if_false]
  rfl

theorem Setup.step_shift {s : Setup} {c c' : Config} {next : Nat} (reading : c.inserting = none)
    (terminal : c.settle.lookahead.isTerminal = true)
    (action : s.table.action c.top c.settle.lookahead = .shift next)
    (advanced : s.advance c.settle next = .ok c') : s.step c = .ok (.next c') := by
  unfold step
  simp only [reading, terminal, Config.top_settle, action, advanced, Bool.not_true,
    Bool.false_eq_true, if_false]
  rfl

theorem Setup.step_accepted {s : Setup} {c : Config} (reading : c.inserting = none)
    (terminal : c.settle.lookahead.isTerminal = true)
    (action : s.table.action c.top c.settle.lookahead = .accept) :
    s.step c = .ok (.accepted c.settle) := by
  unfold step
  simp only [reading, terminal, Config.top_settle, action, Bool.not_true, Bool.false_eq_true,
    if_false]

/-- Where the table has no action, the parser repairs. -/
theorem Setup.step_recover {s : Setup} {c : Config} (reading : c.inserting = none)
    (terminal : c.settle.lookahead.isTerminal = true)
    (action : s.table.action c.top c.settle.lookahead = .error) :
    s.step c = s.recover c.settle c.settle.lookahead := by
  unfold step
  simp only [reading, terminal, Config.top_settle, action, Bool.not_true, Bool.false_eq_true,
    if_false]

/-- Where the end of input is refused and no repair is left, the parser gives up. -/
theorem Setup.step_gaveUp {s : Setup} {c : Config} (reading : c.inserting = none)
    (atEnd : c.settle.lookahead = .eof) (action : s.table.action c.top .eof = .error)
    (repair : s.chooseRepair c.settle .eof = .skip ∨ s.chooseRepair c.settle .eof = .wrap 0) :
    s.step c = .ok (.gaveUp c.settle) := by
  rw [step_recover reading (by rw [atEnd]; decide) (by rw [atEnd]; exact action), atEnd, recover]
  rcases repair with repair | repair <;> simp [repair, asksForNode]

theorem Setup.step_insert {s : Setup} {c : Config} {k : Kind} (reading : c.inserting = none)
    (terminal : c.settle.lookahead.isTerminal = true)
    (action : s.table.action c.top c.settle.lookahead = .error)
    (repair : s.chooseRepair c.settle c.settle.lookahead = .insert k) :
    s.step c = .ok (.next { c.settle with inserting := some k }) := by
  rw [step_recover reading terminal action, recover, repair]

theorem Setup.step_pretend {s : Setup} {c : Config} {k : Kind} {next : Nat}
    (inserting : c.inserting = some k) (action : s.table.action c.top k = .shift next) :
    s.step c = .ok (.next (endInsertion (pushMissing c k next))) := by
  unfold step
  simp only [inserting, insertStep, action]

theorem Setup.step_wrap {s : Setup} {c : Config} {depth : Nat} (readable : s.Readable c)
    (reading : c.inserting = none)
    (action : s.table.action c.top c.settle.lookahead = .error)
    (repair : s.chooseRepair c.settle c.settle.lookahead = .wrap (depth + 1)) :
    s.step c = .ok (.next (wrap c.settle (depth + 1) c.settle.lookahead)) := by
  have settled := readable.suffix (rest_suffix_settle c)
  rw [step_recover reading settled.isTerminal_lookahead action, recover, repair,
    not_asksForNode settled]
  rfl

/-- An error token that the table has no action for is left out, and what is wrong with it is reported. -/
theorem Setup.step_leaveOut {s : Setup} {c left : Config} {u : Token} {later : List Token} {d : Diagnostic}
    {widen : Bool} (reading : c.inserting = none) (front : c.settle.rest = u :: later)
    (invalid : u.diagnostic? = some d) (action : s.table.action c.top .error = .error)
    (pushed : pushSkipped c.settle u = (left, widen)) :
    s.step c = .ok (.next { left with
      rest := later
      cursor := u.stop
      diagnostics := { d with enclosure := left.enclosure } :: left.diagnostics
      lastSkip := true
      inserted := 0 }) := by
  have kind : u.kind = .error := by
    by_contra other
    rw [Token.diagnostic?, if_pos other] at invalid
    cases invalid
  have ahead : c.settle.lookahead = .error := by rw [Config.lookahead, front, ← kind]
  rw [step_recover reading (by rw [ahead]; decide) (by rw [ahead]; exact action), ahead, recover]
  simp [chooseRepair, Repair.choose, asksForNode, skip, front, pushed, reportSkipped, invalid, Except.map]

/-- Nothing is left to do in a state that accepts at the end of input. -/
theorem Setup.step_accept {s : Setup} {c : Config} (reading : c.inserting = none)
    (front : c.rest = []) (action : s.table.action c.top .eof = .accept) :
    s.step c = .ok (.accepted c.settle) := by
  have ahead : c.settle.lookahead = .eof := by simp [Config.settle, Config.lookahead, front]
  exact step_accepted reading (by rw [ahead]; decide) (by rw [ahead]; exact action)

namespace Setup

/-- A run that has ended is the same with more steps. -/
theorem run_of_le {s : Setup} {c last : Config} {fuel more : Nat} (le : fuel ≤ more)
    (ran : s.run fuel c = .ok last) : s.run more c = .ok last := by
  induction fuel generalizing c more with
  | zero => cases ran
  | succ fuel ih =>
    obtain ⟨more, rfl⟩ : ∃ m, more = m + 1 := ⟨more - 1, by omega⟩
    rw [run] at ran ⊢
    cases step : s.step c with
    | error f => rw [step] at ran; cases ran
    | ok next =>
      rw [step] at ran
      cases next with
      | next c' => exact ih (Nat.le_of_succ_le_succ le) ran
      | accepted c' => exact ran
      | gaveUp c' => exact ran

/-- There is always time for two steps. -/
theorem two_le_stepBound (s : Setup) (tokens : Nat) : 2 ≤ s.stepBound tokens := by
  have events : 2 ≤ (tokens + 1) * (s.options.maxInsertions + 2) * (s.table.stateCount + 2) := by
    have first : 1 ≤ (tokens + 1) * (s.options.maxInsertions + 2) :=
      Nat.mul_pos (Nat.succ_pos _) (Nat.succ_pos _)
    calc 2 ≤ 1 * (s.table.stateCount + 2) := by omega
      _ ≤ _ := Nat.mul_le_mul_right _ first
  have reductions (n : Nat) : 1 ≤ s.table.reductionBound n :=
    Nat.mul_pos (Nat.succ_pos _) (Nat.pow_pos (Nat.succ_pos _))
  exact Nat.le_trans events (Nat.le_mul_of_pos_right _ (reductions _))

end Setup

/-- What a parse makes of blanks and comments alone: the node of the empty program, if it has one, and
the blanks behind it. -/
theorem Parser.runOn_blank {g : Grammar} {p : Parser} (built : Table.build g = .ok p.language.table)
    (rule : g.IsRule 0 ⟨g.start, [], none⟩) (action : p.language.table.action 0 .eof = .reduce 0)
    {tokens : List Token} (blank : ∀ u ∈ tokens, u.kind.isTrivia = true) (text : String)
    (reuse : Option Reuse) : p.runOn text tokens reuse = .ok
      { root := .node .sourceFile {} (Setup.made
          ⟨g.start, 0, g.nonterminals[g.start]?.bind (·.node?)⟩ [] 0 .eof ++ tokens.map Config.leaf)
        text := text
        diagnostics := []
        table := p.language.identity } := by
  have parts := Table.build_ok built
  obtain ⟨state, leads⟩ := Grammar.exists_leads g.holds_startItem g.next?_startItem
  have goto : (p.setup reuse).table.goto? 0 g.start = some state :=
    Table.goto_of_leads parts rule.2 leads
  have reduction : (p.setup reuse).table.reductions[0]? =
      some ⟨g.start, 0, g.nonterminals[g.start]?.bind (·.node?)⟩ :=
    Table.reductions_getElem? parts rule.1
  have settled : (Config.initial tokens).settle =
      { Config.initial tokens with pending := tokens, rest := [] } := by
    have all : tokens.takeWhile (·.kind.isTrivia) = tokens := List.takeWhile_eq_self_iff.2 blank
    have none : tokens.dropWhile (·.kind.isTrivia) = [] := List.dropWhile_eq_nil_iff.2 blank
    simp only [Config.settle, Config.initial, all, none, List.nil_append]
  have ahead : (Config.initial tokens).settle.lookahead = .eof := by
    rw [settled]
    rfl
  generalize made : Setup.made ⟨g.start, 0, g.nonterminals[g.start]?.bind (·.node?)⟩ [] 0 .eof = trees
  obtain ⟨last, lastIs⟩ : ∃ c, c = { Config.initial tokens with
    stack := [⟨state, .symbol, false, 0, trees⟩], pending := tokens, rest := [] } := ⟨_, rfl⟩
  have reduced : (p.setup reuse).reduce (Config.initial tokens).settle 0 .eof = .ok last := by
    rw [settled, lastIs, ← made]
    simp only [Setup.reduce, reduction, Config.initial, List.dropWhile_nil, Config.pop,
      Config.topState, goto]
    rfl
  have first : (p.setup reuse).step (.initial tokens) = .ok (.next last) :=
    Setup.step_reduce rfl (by rw [ahead]; rfl) (by rw [ahead]; exact action)
      (by rw [ahead]; exact reduced)
  have second : (p.setup reuse).step last = .ok (.accepted last.settle) := by
    rw [lastIs]
    exact Setup.step_accept rfl rfl (Table.action_eof_accept parts leads)
  have ran : (p.setup reuse).run 2 (.initial tokens) = .ok last.settle := by
    rw [Setup.run, first]
    dsimp only
    rw [Setup.run, second]
  have root : Setup.root last.settle = .node .sourceFile {} (trees ++ tokens.map Config.leaf) := by
    have extras : (Config.extras state tokens).reverse.flatMap Entry.trees =
        tokens.map Config.leaf := by
      rw [Config.extras, List.reverse_reverse, List.flatMap_map]
      exact List.flatMap_pure_eq_map _ _
    rw [Setup.root, Config.flush_eq, lastIs]
    simp only [Config.settle, Config.initial, List.takeWhile_nil, List.append_nil, Config.top,
      Config.topState, List.reverse_append, List.flatMap_append, extras, List.reverse_singleton,
      List.flatMap_singleton]
    rfl
  have report : Setup.report last.settle = [] := by
    rw [lastIs]
    exact List.mergeSort_nil
  rw [runOn, Setup.run_of_le (Setup.two_le_stepBound _ _) ran]
  simp only [root, report, bind, Except.bind, pure, Except.pure]

/-! Rows of semicolons again: nothing in them derives only itself, and nothing vanishes in front of a
nonterminal -/

theorem Grammar.between_semicolons {a b : Nat} {front back : List Symbol}
    (between : Grammar.semicolons.Between a b front back) :
    front = [] ∧ back = [.terminal .semicolon] := by
  obtain ⟨_, p, production, ⟨known, _⟩, _, rhs⟩ := between
  have member := Array.mem_of_getElem? known
  simp only [Grammar.semicolons, List.mem_toArray, List.mem_cons, List.not_mem_nil, or_false]
    at member
  rcases member with rfl | rfl
  · simp at rhs
  · cases front with
    | nil => exact ⟨rfl, (List.cons.inj rhs).2.symm⟩
    | cons x front =>
      have rest := (List.cons.inj rhs).2
      cases front with
      | nil => simp at rest
      | cons y front => simp at rest

theorem Parser.returns_of_acyclic_semicolons : ∃ p : Parser,
    Table.build .semicolons = .ok p.language.table ∧
      ∃ fuel last, p.setup.run fuel (.initial (Token.readAll "; x ;")) = .ok last := by
  obtain ⟨t, built, taken⟩ := Table.exists_built (g := .semicolons)
    (P := fun t => t.accepts [0] .eof = true) (by with_unfolding_all decide)
  have acyclic : Grammar.semicolons.Acyclic := by
    intro a cycle
    obtain ⟨b, ⟨front, back, between, _, vanishes⟩, _⟩ := Relation.TransGen.head'_iff.1 cycle
    rw [(Grammar.between_semicolons between).2] at vanishes
    obtain ⟨n, is, _⟩ := vanishes.exists_nonterminal
    cases is
  have noHidden : Grammar.semicolons.NoHiddenRecursion := by
    rintro a b ⟨front, back, between, _, some⟩
    exact absurd (Grammar.between_semicolons between).1 some
  exact ⟨⟨⟨"semicolons", t, 0⟩, {}⟩, built,
    (returns_of_acyclic (p := ⟨⟨"semicolons", t, 0⟩, {}⟩) built acyclic noHidden (.inr taken)).1 _⟩

/-! A cycle that precedence levels keep from being a conflict -/

/-- A unit derives itself, at a level above the semicolons behind it. -/
def Grammar.revolving : Grammar :=
  { nonterminals := #[.hidden "row", .hidden "unit"]
    levels := #[⟨.left, [.semicolon]⟩, ⟨.left, [.plus]⟩]
    productions := #[⟨0, .nonterminal 1 :: List.replicate 12 (.terminal .semicolon), none⟩,
      ⟨1, [.nonterminal 1], some 1⟩, ⟨1, [.terminal .ident], none⟩]
    start := 0 }

theorem Setup.run_eq_outOfFuel {s : Setup} {c c' : Config} (step : s.step c = .ok (.next c'))
    (later : ∀ fuel, s.run fuel c' = .error .outOfFuel) (fuel : Nat) :
    s.run fuel c = .error .outOfFuel := by
  cases fuel with
  | zero => rfl
  | succ fuel =>
    rw [run, step]
    exact later fuel

/-- What a table does that goes in circles on an identifier with a semicolon behind it. -/
structure Table.Revolves (t : Table) : Prop where
  ident : t.action 0 .ident = .shift 3
  named : t.action 3 .semicolon = .reduce 2
  again : t.action 2 .semicolon = .reduce 1
  name : t.reductions[2]? = some ⟨1, 1, none⟩
  unit : t.reductions[1]? = some ⟨1, 1, none⟩
  goto : t.goto? 0 1 = some 2

theorem Config.settle_eq_self {c : Config} {u : Token} {rest : List Token} (front : c.rest = u :: rest)
    (text : u.kind.isTrivia = false) : c.settle = c := by
  cases c with
  | mk stack tokens =>
    subst front
    simp [settle, text]

/-- The state of the parse with the identifier on the stack and a semicolon next. -/
def Config.behindName (state : Nat) (a b : Token) (rest : List Token) : Config :=
  { initial (b :: rest) with
    stack := [⟨state, .symbol, false, a.start, [leaf a]⟩]
    cursor := a.stop }

/-- The reduction of one entry to a unit changes nothing but the state. -/
theorem Setup.step_behindName {t : Table} (revolves : t.Revolves) {state p : Nat} {a b : Token}
    (second : b.kind = .semicolon) (action : t.action state .semicolon = .reduce p)
    (known : t.reductions[p]? = some ⟨1, 1, none⟩) (options : Options) (rest : List Token) :
    (Setup.mk t options none).step (.behindName state a b rest) =
      .ok (.next (.behindName 2 a b rest)) := by
  have settled : (Config.behindName state a b rest).settle = .behindName state a b rest :=
    Config.settle_eq_self rfl (second ▸ by decide)
  have ahead : (Config.behindName state a b rest).lookahead = .semicolon := second
  refine step_reduce rfl ?_ (p := p) ?_ ?_
  · rw [settled, ahead]
    decide
  · rw [settled, ahead]
    exact action
  · rw [settled, ahead]
    simp [reduce, known, Config.behindName, Config.pop, Entry.isSymbol, Config.topState,
      revolves.goto, Entry.trees]
    rfl

/-- After the identifier the same reduction is made over and over. -/
theorem Setup.run_of_revolves {t : Table} (revolves : t.Revolves) {a b : Token}
    {rest : List Token} (first : a.kind = .ident) (second : b.kind = .semicolon) (options : Options)
    (fuel : Nat) :
    (Setup.mk t options none).run fuel (.initial (a :: b :: rest)) = .error .outOfFuel := by
  have settled : (Config.initial (a :: b :: rest)).settle = .initial (a :: b :: rest) :=
    Config.settle_eq_self rfl (first ▸ by decide)
  have ahead : (Config.initial (a :: b :: rest)).lookahead = .ident := first
  have shifted : (Setup.mk t options none).step (.initial (a :: b :: rest)) =
      .ok (.next (.behindName 3 a b rest)) := by
    have action : (Setup.mk t options none).table.action (Config.initial (a :: b :: rest)).top
        (Config.initial (a :: b :: rest)).settle.lookahead = .shift 3 := by
      rw [settled, ahead]
      exact revolves.ident
    refine step_shift rfl ?_ action ?_
    · rw [settled, ahead]
      decide
    · rw [settled]
      rfl
  have circle (fuel : Nat) : (Setup.mk t options none).run fuel (.behindName 2 a b rest) =
      .error .outOfFuel := by
    induction fuel with
    | zero => rfl
    | succ fuel ih =>
      rw [run, step_behindName revolves second revolves.again revolves.unit]
      exact ih
  exact run_eq_outOfFuel shifted
    (run_eq_outOfFuel (step_behindName revolves second revolves.named revolves.name options rest)
      circle) fuel

set_option maxRecDepth 20000 in
theorem Parser.run_revolving : ∃ t, Table.build .revolving = .ok t ∧ ∀ fuel,
    (Parser.mk ⟨"revolving", t, 0⟩ {}).setup.run fuel (.initial (Token.readAll "a;;;;;;;;;;;;")) =
      .error .outOfFuel := by
  obtain ⟨t, built, ident, named, again, name, unit, goto⟩ := Table.exists_built (g := .revolving)
    (P := fun t => t.action 0 .ident = .shift 3 ∧ t.action 3 .semicolon = .reduce 2 ∧
      t.action 2 .semicolon = .reduce 1 ∧ t.reductions[2]? = some ⟨1, 1, none⟩ ∧
      t.reductions[1]? = some ⟨1, 1, none⟩ ∧ t.goto? 0 1 = some 2) (by with_unfolding_all decide)
  refine ⟨t, built, fun fuel => ?_⟩
  have kinds : (Token.readAll "a;;;;;;;;;;;;").map (·.kind) =
      .ident :: .semicolon :: List.replicate 11 .semicolon := by with_unfolding_all decide
  obtain ⟨a, others, tokens, first, kinds⟩ := List.map_eq_cons_iff.1 kinds
  obtain ⟨b, rest, rfl, second, _⟩ := List.map_eq_cons_iff.1 kinds
  rw [tokens]
  exact Setup.run_of_revolves ⟨ident, named, again, name, unit, goto⟩ first second {} fuel

end ShaderTree
