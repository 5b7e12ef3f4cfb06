import ShaderTree.Proofs.Parser.Conformance
import ShaderTree.Proofs.Parser.Safety

/-! Parses of the built-in language come to an end, and they end by acceptance: only the empty program
derives the empty word, and no chain of productions of one nonterminal each comes back to where it
started. -/
namespace ShaderTree

namespace Grammar

open Relation (ReflTransGen TransGen)

variable {g : Grammar} {a b : Nat}

/-! Grammars in which nothing but the start symbol vanishes -/

/-- The start symbol stands in no right-hand side, and no other nonterminal has an empty one. -/
structure OnlyStartVanishes (g : Grammar) : Prop where
  outside : ∀ p ∈ g.productions.toList, .nonterminal g.start ∉ p.rhs
  empty : ∀ p ∈ g.productions.toList, p.rhs = [] → p.lhs = g.start

namespace OnlyStartVanishes

theorem eq_start (only : g.OnlyStartVanishes) {xs : List Symbol} (vanishes : g.Vanishes xs) :
    ∀ x ∈ xs, x = .nonterminal g.start := by
  obtain ⟨ps, parses⟩ := vanishes
  generalize word : ([] : List Kind) = w at parses
  induction parses with
  | nil => simp
  | terminal => cases word
  | @nonterminal p production xs v w ps qs rule own rest ihOwn ihRest =>
    obtain ⟨rfl, rfl⟩ := List.append_eq_nil_iff.1 word.symm
    have none : production.rhs = [] := by
      rw [List.eq_nil_iff_forall_not_mem]
      intro x inside
      obtain rfl := ihOwn rfl x inside
      exact only.outside production rule.mem inside
    intro x member
    rcases List.mem_cons.1 member with rfl | member
    · rw [only.empty production rule.mem none]
    · exact ihRest rfl x member

/-- Nothing vanishes inside a right-hand side. -/
theorem eq_nil (only : g.OnlyStartVanishes) {p : Nat} {production : Production} {ys : List Symbol}
    (rule : g.IsRule p production) (front back : List Symbol)
    (rhs : production.rhs = front ++ ys ++ back) (vanishes : g.Vanishes ys) : ys = [] := by
  rw [List.eq_nil_iff_forall_not_mem]
  intro x inside
  obtain rfl := only.eq_start vanishes x inside
  exact only.outside production rule.mem (by simp [rhs, inside])

theorem noHiddenRecursion (only : g.OnlyStartVanishes) : g.NoHiddenRecursion := by
  rintro a b ⟨front, back, between, vanishes, nonempty⟩ _
  obtain ⟨p, production, rule, _, rhs⟩ := between.rule
  exact nonempty (only.eq_nil rule [] _ rhs vanishes)

/-- What a nonterminal derives beside nothing is the whole right-hand side of a production. -/
theorem exists_unit (only : g.OnlyStartVanishes) (reproduces : g.Reproduces a b) :
    ∃ p ∈ g.productions.toList, p.lhs = a ∧ p.rhs = [.nonterminal b] := by
  obtain ⟨front, back, between, vanishes, vanishes'⟩ := reproduces
  obtain ⟨p, production, rule, lhs, rhs⟩ := between.rule
  obtain rfl : front = [] := only.eq_nil rule [] _ rhs vanishes
  obtain rfl : back = [] := by
    refine only.eq_nil rule [.nonterminal b] [] ?_ vanishes'
    simpa using rhs
  exact ⟨production, rule.mem, lhs, rhs⟩

end OnlyStartVanishes

/-- The nonterminals with a nonterminal that is a right-hand side of theirs. -/
def units (g : Grammar) : List (Nat × Nat) :=
  g.productions.toList.filterMap fun p =>
    match p.rhs with
    | [.nonterminal b] => some (p.lhs, b)
    | _ => none

/-- How far such pairs lead away from a nonterminal, going on at most `n` times. -/
def unitDepth (units : List (Nat × Nat)) : Nat → Nat → Nat
  | 0, _ => 0
  | n + 1, a => (units.filter (·.1 = a)).foldl (fun d u => max d (unitDepth units n u.2 + 1)) 0

/-- There are no cycles if each of the pairs leads to where less is left. -/
theorem acyclic_of_units (only : g.OnlyStartVanishes) (n : Nat)
    (falls : ∀ u ∈ g.units, unitDepth g.units n u.2 < unitDepth g.units n u.1) : g.Acyclic := by
  have step {a b : Nat} (reproduces : g.Reproduces a b) :
      unitDepth g.units n b < unitDepth g.units n a := by
    obtain ⟨p, member, rfl, rhs⟩ := only.exists_unit reproduces
    exact falls (p.lhs, b) (List.mem_filterMap.2 ⟨p, member, by rw [rhs]⟩)
  intro a cycle
  have less : ∀ b, TransGen g.Reproduces a b → unitDepth g.units n b < unitDepth g.units n a := by
    intro b chain
    induction chain with
    | single one => exact step one
    | tail _ one ih => exact Nat.lt_trans (step one) ih
  exact Nat.lt_irrefl _ (less a cycle)

end Grammar

namespace Metal

set_option maxRecDepth 10000 in
theorem onlyStartVanishes : grammar.OnlyStartVanishes :=
  ⟨by decide, by decide⟩

theorem noHiddenRecursion : grammar.NoHiddenRecursion := onlyStartVanishes.noHiddenRecursion

set_option maxRecDepth 10000 in
theorem units_fall : ∀ u ∈ grammar.units,
    Grammar.unitDepth grammar.units 12 u.2 < Grammar.unitDepth grammar.units 12 u.1 := by
  decide

theorem acyclic : grammar.Acyclic := Grammar.acyclic_of_units onlyStartVanishes 12 units_fall

end Metal

/-! The end of a parse -/

/-- Behind the empty program the table accepts. -/
theorem Table.exists_start_eof {g : Grammar} {t : Table} (parts : BuiltFrom g t)
    (rule : g.IsRule 0 ⟨g.start, [], none⟩) : ∃ state,
      t.reductions[0]? = some ⟨g.start, 0, g.nonterminals[g.start]?.bind (·.node?)⟩ ∧
        t.goto? 0 g.start = some state ∧ t.action state .eof = .accept := by
  obtain ⟨state, leads⟩ := Grammar.exists_leads g.holds_startItem g.next?_startItem
  exact ⟨state, reductions_getElem? parts rule.1, goto_of_leads parts rule.2 leads,
    action_eof_accept parts leads⟩

/-- The empty program is taken. -/
theorem Table.accepts_start_eof {g : Grammar} {t : Table} (parts : BuiltFrom g t)
    (rule : g.IsRule 0 ⟨g.start, [], none⟩) (action : t.action 0 .eof = .reduce 0) :
    t.accepts [0] .eof = true := by
  obtain ⟨state, reduction, goto, accept⟩ := exists_start_eof parts rule
  obtain ⟨fuel, bound⟩ : ∃ fuel, t.reductionBound [0].length = fuel + 1 :=
    Nat.exists_eq_add_one.2 (Nat.mul_pos (Nat.succ_pos _) (Nat.pow_pos (Nat.succ_pos _)))
  have taken : t.simulateWith .eof fuel [state, 0] = some [state, 0] := by
    cases fuel <;> simp [simulateWith, accept]
  rw [accepts, simulate, bound]
  simp [simulateWith, action, reduction, goto, taken]

theorem Table.runs_start_eof {g : Grammar} {t : Table} (parts : BuiltFrom g t)
    (rule : g.IsRule 0 ⟨g.start, [], none⟩) (action : t.action 0 .eof = .reduce 0) :
    ∃ state, t.Runs [state, 0] [.eof] [0] [.eof] [0] ∧ t.action state .eof = .accept := by
  obtain ⟨state, reduction, goto, accept⟩ := exists_start_eof parts rule
  exact ⟨state, .reduce action (reduceStates_eq reduction rfl goto) .refl, accept⟩

namespace Setup

open Config

variable {g : Grammar} {s : Setup} {c last : Config} {tokens : List Token}

theorem Reached.spelled (halting : s.Halting g) (reached : s.Reached tokens c) : c.Spelled g :=
  reached.spelled_of_built halting.built

/-- A run ends with a step that accepts or gives up. -/
theorem exists_last {fuel : Nat} (reached : s.Reached tokens c) (ran : s.run fuel c = .ok last) :
    ∃ c', s.Reached tokens c' ∧ (s.step c' = .ok (.accepted last) ∨ s.step c' = .ok (.gaveUp last)) := by
  induction fuel generalizing c with
  | zero => cases ran
  | succ fuel ih =>
    rw [run] at ran
    cases stepped : s.step c with
    | error f => rw [stepped] at ran; cases ran
    | ok y =>
      rw [stepped] at ran
      cases y with
      | next c' => exact ih (reached.tail stepped) ran
      | accepted c' => exact ⟨c, reached, .inl (Except.ok.inj ran ▸ stepped)⟩
      | gaveUp c' => exact ⟨c, reached, .inr (Except.ok.inj ran ▸ stepped)⟩

/-- A run goes on from wherever a parse comes to. -/
theorem exists_run_of_reached {tokens : List Token} {fuel : Nat} {last : Config}
    (reached : s.Reached tokens c) (ran : s.run fuel c = .ok last) :
    ∃ more, s.run more (.initial tokens) = .ok last := by
  unfold Reached at reached
  induction reached generalizing fuel with
  | refl => exact ⟨fuel, ran⟩
  | @tail before _ _ step ih =>
    have longer : s.run (fuel + 1) before = .ok last := by
      rw [run, step]
      exact ran
    exact ih longer

/-- The last step only puts the blanks before the next token aside. -/
theorem settle_of_last (stepped : s.step c = .ok (.accepted last) ∨ s.step c = .ok (.gaveUp last)) :
    last = c.settle := by
  have final : Final s c last := by
    rcases stepped with stepped | stepped <;>
      rcases step_cases stepped with ⟨_, is, _⟩ | ⟨c', is | is, final⟩ <;> cases is
    · exact final
    · exact final
  cases final with
  | accepted => rfl
  | gaveUp => rfl

/-- A parse accepts only where the table does. -/
theorem accept_of_accepted (stepped : s.step c = .ok (.accepted last)) :
    c.inserting = none ∧ s.table.action c.top c.settle.lookahead = .accept := by
  rcases step_cases stepped with ⟨_, is, _⟩ | ⟨c', is, final⟩
  · cases is
  · cases final with
    | accepted reading _ action => exact ⟨reading, action⟩
    | gaveUp reading atEnd action repair =>
      rw [atEnd] at action repair
      cases (step_gaveUp reading atEnd action repair).symm.trans stepped

theorem top_eq_zero {top : Nat} {below : List Nat} (spells : g.Spells [] (top :: below)) :
    top = 0 := by
  cases spells
  rfl

/-- A parse does not give up where the table has an action for the end of input in its start
state: by then all entries were given up, and that state is on top. -/
theorem step_ne_gaveUp (spelled : c.Spelled g) (acts : s.table.action 0 .eof ≠ .error) :
    s.step c ≠ .ok (.gaveUp last) := by
  intro stepped
  rcases step_cases stepped with ⟨_, is, _⟩ | ⟨c', is, final⟩
  · cases is
  · cases final with
    | accepted reading terminal action =>
      cases (step_accepted reading terminal action).symm.trans stepped
    | gaveUp _ atEnd action repair =>
      rw [atEnd] at action repair
      have short : c.states.length ≤ 1 := Repair.length_of_choose repair
      obtain ⟨path, spells⟩ := spelled.path
      obtain ⟨below, states⟩ := spelled.states_eq
      have empty : path = [] := by
        rw [spells.length] at short
        exact List.length_eq_zero_iff.1 (Nat.le_zero.1 (Nat.le_of_succ_le_succ short))
      rw [empty, states] at spells
      rw [top_eq_zero spells] at action
      exact acts action

end Setup

theorem Metal.halting {p : Parser} (built : Metal.table = .ok p.language.table) {reuse : Option Reuse}
    (leaves : ∀ r, reuse = some r → r.HasLeaves) : (p.setup reuse).Halting Metal.grammar := by
  have parts := Table.build_ok built
  have start : p.language.table.action 0 .eof = .reduce 0 := Metal.action_start_eof built
  exact ⟨parts, fun k spells => spells.halts Metal.acyclic Metal.noHiddenRecursion parts,
    .inr (Table.accepts_start_eof parts Metal.isRule_program start), leaves⟩

/-- Metal parses end, and by acceptance: whatever the text and the options, after finitely many
steps the table accepts, and in no state of the parse does the parser give up at the end of input. -/
theorem Metal.parse_accepts {p : Parser} (built : Metal.table = .ok p.language.table) (text : String) :
    (∃ fuel c, p.setup.Reached (Token.readAll text) c ∧ p.setup.step c = .ok (.accepted c.settle) ∧
      p.setup.run fuel (.initial (Token.readAll text)) = .ok c.settle) ∧
    ∀ c last, p.setup.Reached (Token.readAll text) c → p.setup.step c ≠ .ok (.gaveUp last) := by
  have start : p.setup.table.action 0 .eof = .reduce 0 := Metal.action_start_eof built
  have acts : p.setup.table.action 0 .eof ≠ .error := by rw [start]; simp
  have halting : p.setup.Halting Metal.grammar := Metal.halting built fun _ reuse => nomatch reuse
  have readable : p.setup.Readable (.initial (Token.readAll text)) :=
    ⟨fun _ => Token.isLexical_of_mem_readAll, fun _ reuse => nomatch reuse⟩
  have spelled := Config.spelled_initial (g := Metal.grammar) (Token.readAll text)
  have never (c last : Config) (reached : p.setup.Reached (Token.readAll text) c) :
      p.setup.step c ≠ .ok (.gaveUp last) :=
    Setup.step_ne_gaveUp (reached.spelled halting) acts
  obtain ⟨fuel, last, ran⟩ :=
    Setup.exists_run halting spelled readable (Setup.finishes halting spelled rfl)
  obtain ⟨c, reached, stepped | stepped⟩ := Setup.exists_last .refl ran
  · obtain rfl := Setup.settle_of_last (.inl stepped)
    exact ⟨⟨fuel, c, reached, stepped, ran⟩, never⟩
  · exact absurd stepped (never c last reached)

/-- Two functions that break off, and no allowance for repairs: at the end of input the table accepts what
was made of them. -/
theorem Metal.parse_accepts_unfinished : ∃ p : Parser, Metal.table = .ok p.language.table ∧
    p.options.maxInsertions = 0 ∧ p.options.skipWindow = 0 ∧ ∃ fuel c,
      p.setup.run fuel (.initial (Token.readAll "kernel void f( \x7b float g(int")) = .ok c.settle ∧
      p.setup.step c = .ok (.accepted c.settle) ∧ c.settle.lookahead = .eof ∧
      p.language.table.action c.top .eof = .accept := by
  obtain ⟨t, built⟩ := Metal.exists_table
  let p : Parser := ⟨⟨"metal", t, 0⟩, { maxInsertions := 0, skipWindow := 0 }⟩
  obtain ⟨⟨fuel, c, _, step, ran⟩, _⟩ := Metal.parse_accepts (p := p) built
    "kernel void f( \x7b float g(int"
  obtain ⟨_, accept⟩ := Setup.accept_of_accepted step
  have ends : c.settle.lookahead = .eof := Table.eof_of_accept built accept
  exact ⟨p, built, rfl, rfl, fuel, c, ran, step, ends, ends ▸ accept⟩

end ShaderTree
