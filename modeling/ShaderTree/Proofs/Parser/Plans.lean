import ShaderTree.Proofs.Parser.Readings
import ShaderTree.Proofs.Parser.Replay
import ShaderTree.Proofs.Table.Following
import ShaderTree.Proofs.Table.Paths

/-! Parses drawn up in advance. A plan is a derivation with its tokens. Where the levels settle each of its
shifts and reductions against all that can meet the items along it, the table builds what is planned, and
none of its states has to be known. -/
namespace ShaderTree

open Token (Label label)

namespace Grammar

variable {g : Grammar} {a : Ahead} {k : Kind} {p q : Nat}

instance (p q : Nat) : Decidable (g.Looser p q) :=
  decidable_of_iff ((g.productionPrecedence? p).any fun a =>
    (g.productionPrecedence? q).any fun b => a.level < b.level) (by simp [Looser, Option.any_eq_true])

theorem Looser.irrefl (looser : g.Looser p p) : False := by
  obtain ⟨a, b, first, second, less⟩ := looser
  rw [Option.some.inj (first.symm.trans second)] at less
  exact Nat.lt_irrefl _ less

/-- Where a production wins over the shift of a terminal, it does not tie. -/
theorem not_tie (wins : g.Above p k ∨ g.Level p k .left ∨ g.Below p k ∨ g.Level p k .right) :
    ¬ g.Level p k .nonassoc := by
  rintro ⟨x, y, ofP, ofK, same, nonassoc⟩
  rcases wins with ⟨x', y', ofP', ofK', less⟩ | ⟨x', y', ofP', ofK', same', is⟩ |
      ⟨x', y', ofP', ofK', less⟩ | ⟨x', y', ofP', ofK', same', is⟩ <;>
    obtain rfl := Option.some.inj (ofP.symm.trans ofP') <;>
    obtain rfl := Option.some.inj (ofK.symm.trans ofK')
  · omega
  · rw [is] at nonassoc
    cases nonassoc
  · omega
  · rw [is] at nonassoc
    cases nonassoc

end Grammar

namespace Meetings

open Bits

variable {g : Grammar} {m : Meetings} {a : Ahead} {t : Table} {i : Item} {k : Kind} {s state : Nat}

/-- A set has the items of a state. -/
def Holding (m : Meetings) (g : Grammar) (s state : Nat) : Prop :=
  ∀ i, g.Holds state i → s.testBit (m.place i) = true

/-- The items of the state that a parse starts in. -/
def startSet (m : Meetings) (g : Grammar) : Nat := m.startsOf g.nonterminals.size ||| m.startsOf g.start

/-- Behind a symbol a set has what the symbol is passed by, and what that brings with it. -/
def goes (m : Meetings) (g : Grammar) (s : Nat) (x : Symbol) : Bool :=
  m.isClosed g (m.move g s x) && subset ((s &&& m.inFront x) <<< 1) (m.move g s x)

/-- A test of the productions that are complete in a set and can be followed by a terminal. -/
def rivals (m : Meetings) (a : Ahead) (g : Grammar) (s : Nat) (k : Kind) (test : Nat → Bool) : Bool :=
  disjoint s m.complete || g.rules.zipIdx.all fun (r, q) =>
    !s.testBit (m.place ⟨q, r.rhs.length⟩) || !(a.followOf r.lhs).testBit k.index || test q

/-- What is complete gives way to what reads a terminal. -/
def shifts (m : Meetings) (a : Ahead) (g : Grammar) (s : Nat) (k : Kind) : Bool :=
  m.rivals a g s k fun q => g.Below q k || g.Level q k .right

/-- What reads a terminal, and what else is complete, gives way to a production. -/
def reduces (m : Meetings) (a : Ahead) (g : Grammar) (s : Nat) (k : Kind) (p : Nat) : Bool :=
  (disjoint s (m.inFront (.terminal k)) || g.Above p k || g.Level p k .left) &&
    m.rivals a g s k fun q => q = p || g.Looser q p && !g.Level q k .nonassoc

theorem Holding.closed (checks : m.Checks a g = true) (closed : m.isClosed g s = true)
    (kernel : ∀ i ∈ (Analysis.ofGrammar g).kernelOf state, s.testBit (m.place i) = true) :
    m.Holding g s state := by
  intro i holds
  induction holds with
  | kernel member => exact kernel _ member
  | @start i j n holds next start ih =>
    have inside : n < g.nonterminals.size := by
      by_contra outside
      rw [Grammar.startsOf_eq_nil outside] at start
      cases start
    have brought := List.all_eq_true.1 closed n (List.mem_range.2 inside)
    have place := (check_of_next checks (Grammar.isItem_of_holds holds) next).1
    rw [not_disjoint ih place, Bool.false_or] at brought
    exact testBit_of_subset brought (check_of_start checks start).1

theorem Holding.start (checks : m.Checks a g = true) (closed : m.isClosed g (m.startSet g) = true) :
    m.Holding g (m.startSet g) 0 := by
  refine .closed checks closed fun i member => ?_
  rw [Grammar.kernelOf_zero, List.mem_singleton] at member
  obtain ⟨r, known, lhs, _⟩ := Grammar.getElem?_rules (Nat.le_refl g.startRule)
  have own := (rule_of_checks checks known).2.1
  have outer : g.lhs g.startRule = g.nonterminals.size := by simp [Grammar.lhs, Grammar.startRule]
  rw [lhs, outer] at own
  rw [member, startSet, Nat.testBit_or, show m.place g.startItem = m.place ⟨g.startRule, 0⟩ from rfl, own,
    Bool.true_or]

theorem Holding.step (checks : m.Checks a g = true) {target : Nat} {x : Symbol}
    (holding : m.Holding g s state) (leads : g.Leads state x target) (goes : m.goes g s x = true) :
    m.Holding g (m.move g s x) target := by
  obtain ⟨closed, kernel⟩ := Bool.and_eq_true_iff.1 goes
  refine .closed checks closed fun j member => ?_
  obtain ⟨i, holds, next, rfl⟩ := (leads.kernel.2 j).1 member
  have place := (check_of_next checks (Grammar.isItem_of_holds holds) next).1
  refine testBit_of_subset kernel ?_
  rw [show m.place i.advance = m.place i + 1 from rfl, Nat.testBit_shiftLeft, Nat.add_sub_cancel,
    Nat.testBit_and, holding i holds, place]
  simp

section

variable (covers : a.Covers g = true) (checks : m.Checks a g = true) (built : t.BuiltFrom g)

include covers checks built

theorem test_of_rivals {test : Nat → Bool} (rivals : m.rivals a g s k test = true)
    (holding : m.Holding g s state) {q : Nat} (completes : g.Completes state k q) : test q = true := by
  obtain ⟨_, d, looks, complete⟩ := completes
  have meet := holding _ looks.holds
  have item := Grammar.isItem_of_holds looks.holds
  obtain ⟨_, place, _⟩ := check_of_complete checks looks.holds complete
  rcases Bool.or_eq_true_iff.1 rivals with alone | all
  · rw [not_disjoint meet place] at alone
    cases alone
  · obtain ⟨r, known, lhs, rhs⟩ := Grammar.getElem?_rules item.1
    have terminal := Grammar.isTerminal_of_looks built.valid looks
    have follow := Ahead.follow_of_looks covers looks (of_decide_eq_true terminal)
    have here : m.place ⟨q, r.rhs.length⟩ = m.place ⟨q, d⟩ := by
      rw [rhs, ← Grammar.dot_eq_length looks.holds complete]
    have own := List.all_eq_true.1 all (r, q) (List.mem_zipIdx_iff_getElem?.2 known)
    simpa [here, meet, lhs, follow] using own

/-- An item that wins shifts its terminal. -/
theorem exists_shift (holding : m.Holding g s state) (holds : g.Holds state i)
    (symbol : g.next? i = some (.terminal k)) (shifts : m.shifts a g s k = true) :
    ∃ next, t.action state k = .shift next ∧ g.Leads state (.terminal k) next := by
  obtain ⟨next, leads⟩ := Grammar.exists_leads holds symbol
  have gives {q : Nat} (completes : g.Completes state k q) : g.Below q k ∨ g.Level q k .right := by
    simpa using test_of_rivals covers checks built shifts holding completes
  obtain ⟨s, known⟩ := Grammar.exists_of_holds holds
  have terminal : k.isTerminal = true :=
    Grammar.isTerminal_of_rhs (Grammar.hasTerminals_of_validate built.valid)
      (List.mem_of_getElem? symbol)
  have settled := Table.settled_action built known terminal fun p _ _ completes =>
    Grammar.not_tie (.inr (.inr (gives completes)))
  rw [Grammar.shiftOn_eq_shift.2 leads] at settled
  refine ⟨next, ?_, leads⟩
  cases action : t.action state k with
  | error => rw [action] at settled; cases settled.1
  | shift target => rw [action] at settled; exact settled.1.symm
  | accept => rw [action] at settled; cases settled.1
  | reduce p =>
    rw [action] at settled
    obtain ⟨offered, _, wins⟩ := settled
    have completes := (Grammar.reduce_mem_offers built.valid).1 offered
    exact (Grammar.looser_of_shift (gives completes) (wins (by simp))).irrefl.elim

/-- A complete item that wins is reduced. -/
theorem action_eq_reduce (holding : m.Holding g s state) (looks : g.Looks state i k.index)
    (complete : g.IsComplete i) (other : i.production ≠ g.startRule)
    (reduces : m.reduces a g s k i.production = true) :
    t.action state k = .reduce i.production := by
  obtain ⟨shift, rivals⟩ := Bool.and_eq_true_iff.1 reduces
  have own : g.Completes state k i.production := ⟨other, i.dot, looks, complete⟩
  have wins {target : Nat} (leads : g.Leads state (.terminal k) target) :
      g.Above i.production k ∨ g.Level i.production k .left := by
    obtain ⟨j, holds, symbol⟩ := leads.exists_next
    have place := (check_of_next checks (Grammar.isItem_of_holds holds) symbol).1
    simpa [not_disjoint (holding j holds) place] using shift
  have loses {q : Nat} (completes : g.Completes state k q) (differ : q ≠ i.production) :
      g.Looser q i.production ∧ ¬ g.Level q k .nonassoc := by
    simpa [differ] using test_of_rivals covers checks built rivals holding completes
  obtain ⟨s, known⟩ := Grammar.exists_of_holds looks.holds
  have settled := Table.settled_action built known (Grammar.isTerminal_of_looks built.valid looks) <| by
    intro q target leads completes
    by_cases same : q = i.production
    · rw [same]
      exact Grammar.not_tie ((wins leads).elim .inl fun level => .inr (.inl level))
    · exact (loses completes same).2
  have offered : .reduce i.production ∈ g.offers state k := (Grammar.reduce_mem_offers built.valid).2 own
  cases action : t.action state k with
  | error =>
    rw [action] at settled
    rw [settled.2] at offered
    cases offered
  | shift target =>
    rw [action] at settled
    obtain ⟨shift, losers⟩ := settled
    obtain ⟨q, is, under⟩ := losers _ offered
    obtain rfl := Action.reduce.inj is
    exact (Grammar.looser_of_shift under (wins (Grammar.shiftOn_eq_shift.1 shift))).irrefl.elim
  | accept =>
    rw [action] at settled
    cases settled.2.2 _ offered
  | reduce q =>
    rw [action] at settled
    by_cases same : q = i.production
    · rw [same]
    · obtain ⟨r, is, above⟩ := settled.2.1 _ offered fun is => same (Action.reduce.inj is).symm
      obtain rfl := Action.reduce.inj is
      have completes := (Grammar.reduce_mem_offers built.valid).1 settled.1
      exact ((loses completes same).1.trans above).irrefl.elim

end

end Meetings

namespace Cell

variable {m n : Nat} {c : Cell} {cells upper lower rest below : List Cell}

/-- Symbols are taken off in two parts. -/
theorem pop_add (first : pop m cells = some (upper, rest)) (second : pop n rest = some (lower, below)) :
    pop (m + n) cells = some (lower ++ upper, below) := by
  induction cells generalizing m upper with
  | nil =>
    cases m with
    | zero =>
      obtain ⟨rfl, rfl⟩ := Prod.mk.inj (Option.some.inj first)
      simpa using second
    | succ m => cases first
  | cons c cells ih =>
    cases m with
    | zero =>
      obtain ⟨rfl, rfl⟩ := Prod.mk.inj (Option.some.inj first)
      simpa using second
    | succ m =>
      rw [pop, Option.map_eq_some_iff] at first
      obtain ⟨⟨inner, left⟩, taken, is⟩ := first
      obtain ⟨rfl, rfl⟩ := Prod.mk.inj is
      rw [Nat.add_right_comm, pop, show (if c.isSymbol then m + n else m + n + 1) =
        (if c.isSymbol then m else m + 1) + n by split <;> omega, ih taken]
      simp

/-- A symbol is taken off with what is on top of it and no symbol. -/
theorem pop_one (role : c.isSymbol = true) (plain : ∀ d ∈ upper, d.isSymbol = false)
    (lower : List Cell) : pop 1 (upper ++ c :: lower) = some (c :: upper.reverse, lower) := by
  induction upper with
  | nil => simp [pop, role]
  | cons d upper ih =>
    have here := plain d (.head _)
    have others := ih fun e member => plain e (.tail _ member)
    simp [pop, here, others]

end Cell

open Setup Config in
/-- A text that the table builds as a whole is parsed to what is built, without a report. -/
theorem Parser.root_of_builds {p : Parser} {text : String} {d : Document} {u : Token}
    {later : List Token} {next : Nat} {cells : List Cell} (tokens : Token.readAll text = u :: later)
    (solid : u.kind.isTrivia = false) (action : p.language.table.action 0 u.kind = .shift next)
    (builds : p.language.table.Builds 0 .eof ((Token.readAll text).map label) cells)
    (accept : p.language.table.action (Cell.top 0 cells) .eof = .accept)
    (parsed : p.parse text = .ok d) :
    d.diagnostics = [] ∧ d.root.plain = .node .sourceFile {} (Cell.forest cells) := by
  let c := initial (Token.readAll text)
  have rest : c.settle.rest = Token.readAll text := by
    change (Token.readAll text).dropWhile _ = _
    rw [tokens, List.dropWhile_cons_of_neg (by simp [solid])]
  have pending : c.settle.pending = [] := by
    change [] ++ (Token.readAll text).takeWhile _ = _
    rw [tokens, List.takeWhile_cons_of_neg (by simp [solid]), List.append_nil]
  have stack : c.settle.flush.stack = [] := by
    rw [stack_flush, pending]
    rfl
  have ahead : c.settle.lookahead = u.kind := by rw [lookahead, rest, tokens]
  rcases exists_ahead (s := p.setup) (c := c) rfl rfl (fun _ => Token.isLexical_of_mem_readAll)
      (ahead ▸ action) builds rfl (rest.trans (List.append_nil _).symm) rfl rfl with
    ⟨none, _⟩ | ⟨_, c', entries, steps, rfl, further⟩
  · rw [tokens] at none
    cases none
  · have each : p.setup.GoesOn ≤ fun c c' => p.setup.step c = .ok (.next c') := fun _ _ goes => goes.2
    have reached : p.setup.Reached (Token.readAll text) c' :=
      Relation.ReflTransGen.mono each _ _ steps
    have next : c'.settle.lookahead = .eof := further.lookahead
    have accepted : p.setup.step c' = .ok (.accepted c'.settle) :=
      step_accepted further.inserting (by rw [next]; rfl) (by rw [next, further.top]; exact accept)
    have once : p.setup.run 1 c' = .ok c'.settle := by rw [run, accepted]
    obtain ⟨fuel, ran⟩ := exists_run_of_reached reached once
    obtain rfl := parseTokens_of_run parsed ran
    refine ⟨report_eq_nil.2 (congrArg Config.diagnostics further), ?_⟩
    have none : c'.settle.pending = [] := further.pending
    have whole : c'.settle.flush.stack = entries := by
      rw [stack_flush, none, stack_settle, further.stack, stack, List.append_nil]
      rfl
    rw [root, whole, Tree.plain, Tree.plainAll_flatMap, Cell.forest, ← List.map_reverse,
      List.flatMap_map]
    rfl

/-- A row of tokens, each behind some blanks, and of nonterminals with what they are derived to. -/
inductive Plan where
  | nil
  | token (blanks : List Label) (l : Label) (rest : Plan)
  | rule (n : Nat) (own rest : Plan)

/-- The production of a nonterminal with a right-hand side. -/
def Grammar.production? (g : Grammar) (n : Nat) (rhs : List Symbol) : Option Nat :=
  g.productions.toList.findIdx? fun p => p.lhs = n && p.rhs = rhs

namespace Plan

protected def append : Plan → Plan → Plan
  | nil, other => other
  | token blanks l rest, other => token blanks l (rest.append other)
  | rule n own rest, other => rule n own (rest.append other)

instance : Append Plan := ⟨Plan.append⟩

def symbols : Plan → List Symbol
  | nil => []
  | token _ l rest => .terminal l.1 :: rest.symbols
  | rule n _ rest => .nonterminal n :: rest.symbols

/-- The terminals that are read. -/
def word : Plan → List Kind
  | nil => []
  | token _ l rest => l.1 :: rest.word
  | rule _ own rest => own.word ++ rest.word

/-- All tokens, blanks with them. -/
def labels : Plan → List Label
  | nil => []
  | token blanks l rest => blanks ++ l :: rest.labels
  | rule _ own rest => own.labels ++ rest.labels

/-- The blanks in front of the first symbol, which stay outside of what that one becomes. -/
def leading : Plan → List Label
  | nil => []
  | token blanks _ _ => blanks
  | rule _ own _ => own.leading

/-- The token that comes first, if no production without symbols does. -/
def first? : Plan → Option Label
  | nil => none
  | token _ l _ => some l
  | rule _ own _ => own.first?

/-- What the symbols become, without those blanks. -/
def forest (g : Grammar) : Plan → List Tree
  | nil => []
  | token _ l rest => .leaf l.1 l.2 :: (rest.leading.map fun b => .leaf b.1 b.2) ++ rest.forest g
  | rule n own rest => Reduction.trees ⟨n, own.symbols.length, g.nonterminals[n]?.bind (·.node?)⟩
      (own.forest g) ++ (rest.leading.map fun b => .leaf b.1 b.2) ++ rest.forest g

/-- The terminal that comes first, with another one behind them all. -/
def ahead (plan : Plan) (follow : Kind) : Kind := plan.word.headD follow

/-- Follows a plan from a set with the items of a state, as long as levels settle what is done next; where
they do to its end, this is a set for the state that it ends in. -/
def follow (m : Meetings) (a : Ahead) (g : Grammar) : Plan → Kind → Nat → Option Nat
  | nil, _, s => some s
  | token blanks l rest, k, s =>
    if !l.1.isTrivia && blanks.all (·.1.isTrivia) && m.shifts a g s l.1 && m.goes g s (.terminal l.1) then
      rest.follow m a g k (m.move g s (.terminal l.1))
    else none
  | rule n own rest, k, s =>
    match g.production? n own.symbols, own.follow m a g (rest.ahead k) s with
    | some p, some done =>
      if n < g.nonterminals.size && m.reduces a g done (rest.ahead k) p && m.goes g s (.nonterminal n) then
        rest.follow m a g k (m.move g s (.nonterminal n))
      else none
    | _, _ => none

variable {g : Grammar} {m : Meetings} {a : Ahead} {t : Table} {plan own rest : Plan} {k : Kind}
  {n s done : Nat} {path : List Symbol} {i : Item}

theorem token_of_follow {blanks : List Label} {l : Label}
    (h : (token blanks l rest).follow m a g k s = some done) :
    l.1.isTrivia = false ∧ (∀ b ∈ blanks, b.1.isTrivia = true) ∧ m.shifts a g s l.1 = true ∧
      m.goes g s (.terminal l.1) = true ∧
        rest.follow m a g k (m.move g s (.terminal l.1)) = some done := by
  unfold follow at h
  split at h
  · rename_i test
    simp only [Bool.and_eq_true, Bool.not_eq_true', List.all_eq_true] at test
    exact ⟨test.1.1.1, test.1.1.2, test.1.2, test.2, h⟩
  · cases h

theorem rule_of_follow (h : (rule n own rest).follow m a g k s = some done) :
    ∃ p level? inner, g.IsRule p ⟨n, own.symbols, level?⟩ ∧
      own.follow m a g (rest.ahead k) s = some inner ∧ m.reduces a g inner (rest.ahead k) p = true ∧
        m.goes g s (.nonterminal n) = true ∧
          rest.follow m a g k (m.move g s (.nonterminal n)) = some done := by
  unfold follow at h
  split at h
  · rename_i p inner found within
    split at h
    · rename_i test
      simp only [Bool.and_eq_true, decide_eq_true_eq] at test
      obtain ⟨⟨bound, reduces⟩, goes⟩ := test
      obtain ⟨inside, is, _⟩ := List.findIdx?_eq_some_iff_getElem.1 found
      obtain ⟨lhs, rhs⟩ := Bool.and_eq_true_iff.1 is
      have same : g.productions.toList[p] = ⟨n, own.symbols, g.productions.toList[p].level?⟩ := by
        rw [← of_decide_eq_true lhs, ← of_decide_eq_true rhs]
      have known : g.productions[p]? = some ⟨n, own.symbols, g.productions.toList[p].level?⟩ := by
        rw [← Array.getElem?_toList, List.getElem?_eq_getElem inside, ← same]
      exact ⟨p, _, inner, ⟨known, bound⟩, within, reduces, goes, h⟩
    · cases h
  · cases h

theorem exists_parses (h : plan.follow m a g k s = some done) :
    ∃ ps, g.Parses plan.symbols plan.word ps := by
  induction plan generalizing k s done with
  | nil => exact ⟨[], .nil⟩
  | token blanks l rest ih =>
    obtain ⟨_, _, _, _, onward⟩ := token_of_follow h
    obtain ⟨ps, parses⟩ := ih onward
    exact ⟨ps, .terminal _ parses⟩
  | rule n own rest ihOwn ih =>
    obtain ⟨p, _, inner, rule, within, _, _, onward⟩ := rule_of_follow h
    obtain ⟨ps, parses⟩ := ihOwn within
    obtain ⟨qs, parses'⟩ := ih onward
    exact ⟨_, .nonterminal rule parses parses'⟩

theorem ahead_rule (n : Nat) (own rest : Plan) (k : Kind) :
    (rule n own rest).ahead k = own.ahead (rest.ahead k) := by
  rw [ahead, ahead, word]
  cases own.word <;> rfl

/-- In a state a plan lies ahead: a set has the items of the state, and one of them has the plan's symbols
behind its dot and can be followed by what is behind the plan. -/
structure Stands (m : Meetings) (g : Grammar) (plan : Plan) (k : Kind) (i : Item) (s state : Nat) : Prop where
  holding : m.Holding g s state
  behind : (g.rhs i.production).drop i.dot = plan.symbols
  looks : g.Looks state i k.index

section

variable (covers : a.Covers g = true) (checks : m.Checks a g = true) (built : t.BuiltFrom g)

theorem Stands.start (checks : m.Checks a g = true) (closed : m.isClosed g (m.startSet g) = true)
    (symbols : plan.symbols = [.nonterminal g.start]) :
    Stands m g plan .eof g.startItem (m.startSet g) 0 := by
  have rhs : g.rhs g.startRule = [.nonterminal g.start] := by simp [Grammar.rhs, Grammar.startRule]
  exact ⟨.start checks closed, symbols ▸ rhs, .start⟩

include covers checks built

/-- A token that is ahead is shifted. -/
theorem Stands.token {state : Nat} {blanks : List Label} {l : Label}
    (stands : Stands m g (.token blanks l rest) k i s state)
    (settled : (Plan.token blanks l rest).follow m a g k s = some done) :
    ∃ next, t.action state l.1 = .shift next ∧ g.Leads state (.terminal l.1) next ∧
      Stands m g rest k i.advance (m.move g s (.terminal l.1)) next := by
  obtain ⟨_, _, shifts, goes, _⟩ := token_of_follow settled
  obtain ⟨symbol, left⟩ := Grammar.next?_eq stands.behind
  obtain ⟨next, action, leads⟩ :=
    Meetings.exists_shift covers checks built stands.holding stands.looks.holds symbol shifts
  exact ⟨next, action, leads, stands.holding.step checks leads goes, left, .pass stands.looks symbol leads⟩

/-- A nonterminal that is ahead has a production, for which its own plan lies ahead and which is reduced
at the end of that. -/
theorem Stands.rule {state : Nat} (stands : Stands m g (.rule n own rest) k i s state)
    (settled : (Plan.rule n own rest).follow m a g k s = some done) :
    ∃ p inner next, own.follow m a g (rest.ahead k) s = some inner ∧
      Stands m g own (rest.ahead k) ⟨p, 0⟩ s state ∧
      t.reductions[p]? = some ⟨n, own.symbols.length, g.nonterminals[n]?.bind (·.node?)⟩ ∧
      (∀ top, Stands m g nil (rest.ahead k) ⟨p, 0 + own.symbols.length⟩ inner top →
        t.action top (rest.ahead k) = .reduce p) ∧
      t.goto? state n = some next ∧ g.Leads state (.nonterminal n) next ∧
      Stands m g rest k i.advance (m.move g s (.nonterminal n)) next := by
  obtain ⟨p, level?, inner, rule, within, reduces, goes, onward⟩ := rule_of_follow settled
  obtain ⟨symbol, left⟩ := Grammar.next?_eq stands.behind
  obtain ⟨next, leads⟩ := Grammar.exists_leads stands.looks.holds symbol
  have rhs : g.rhs p = own.symbols := Grammar.rhs_of_isRule rule
  have starts : g.Looks state ⟨p, 0⟩ (rest.ahead k).index := by
    obtain ⟨ps, parses⟩ := exists_parses onward
    obtain ⟨later, input⟩ : ∃ later, rest.word ++ [k] = rest.ahead k :: later := by
      unfold ahead
      cases rest.word <;> exact ⟨_, rfl⟩
    exact Grammar.looks_start stands.behind rule stands.looks parses input
  refine ⟨p, inner, next, within, ⟨stands.holding, rhs, starts⟩, Table.reductions_getElem? built rule.1,
    fun top ends => ?_, Table.goto_of_leads built rule.2 leads, leads,
    stands.holding.step checks leads goes, left, .pass stands.looks symbol leads⟩
  have complete : g.IsComplete ⟨p, 0 + own.symbols.length⟩ := by
    rw [Grammar.IsComplete, rhs, Nat.zero_add]
  exact Meetings.action_eq_reduce covers checks built ends.holding ends.looks complete
    (Grammar.ne_startRule_of_isRule rule) reduces

end

/-- What the table has built along a plan: its symbols, on the blanks in front of them. -/
structure Built (t : Table) (m : Meetings) (g : Grammar) (plan : Plan) (k : Kind) (i : Item)
    (path : List Symbol) (ls : List Label) (cells high : List Cell) (s : Nat) : Prop where
  builds : t.Builds 0 k (ls ++ plan.labels)
    (high ++ (Cell.blanks (Cell.top 0 cells) plan.leading ++ cells))
  stands : Stands m g nil k ⟨i.production, i.dot + plan.symbols.length⟩ s
    (Cell.top 0 (high ++ (Cell.blanks (Cell.top 0 cells) plan.leading ++ cells)))
  reaches : g.Reaches (plan.symbols.reverse ++ path)
    (Cell.top 0 (high ++ (Cell.blanks (Cell.top 0 cells) plan.leading ++ cells)))
  forest : Cell.forest high = plan.forest g
  pops : ∀ lower, Cell.pop plan.symbols.length (high ++ lower) = some (high.reverse, lower)

/-- A first symbol is put below what is built from the others. -/
theorem Built.cons {ls own : List Label} {cells high : List Cell} {x : Symbol} {c : Cell}
    (role : c.isSymbol = true) (symbols : plan.symbols = x :: rest.symbols)
    (labels : plan.labels = own ++ rest.labels)
    (forest : plan.forest g = c.trees ++ (rest.leading.map fun b => .leaf b.1 b.2) ++ rest.forest g)
    (more : Built t m g rest k i.advance (x :: path) (ls ++ own)
      (c :: (Cell.blanks (Cell.top 0 cells) plan.leading ++ cells)) high s) :
    Built t m g plan k i path ls cells (high ++ (Cell.blanks c.state rest.leading ++ [c])) s := by
  have stack : high ++ (Cell.blanks c.state rest.leading ++ [c]) ++
      (Cell.blanks (Cell.top 0 cells) plan.leading ++ cells) =
      high ++ (Cell.blanks c.state rest.leading ++
        (c :: (Cell.blanks (Cell.top 0 cells) plan.leading ++ cells))) := by simp
  refine ⟨?_, ?_, ?_, ?_, fun lower => ?_⟩
  · rw [stack, labels, ← List.append_assoc]
    exact more.builds
  · rw [stack, symbols, List.length_cons, Nat.add_comm rest.symbols.length, ← Nat.add_assoc]
    exact more.stands
  · rw [stack, symbols, List.reverse_cons, List.append_assoc]
    exact more.reaches
  · rw [Cell.forest_append, Cell.forest_append, Cell.forest_blanks, more.forest, forest]
    simp [Cell.forest]
  · have first := more.pops (Cell.blanks c.state rest.leading ++ c :: lower)
    have second : Cell.pop 1 (Cell.blanks c.state rest.leading ++ c :: lower) = _ :=
      Cell.pop_one role Cell.isSymbol_of_mem_blanks lower
    rw [symbols, List.length_cons]
    simpa using Cell.pop_add first second

/-- Where all is settled along a plan, the table builds it. -/
theorem exists_built (covers : a.Covers g = true) (checks : m.Checks a g = true) (built : t.BuiltFrom g)
    {ls : List Label} {cells : List Cell} (settled : plan.follow m a g k s = some done)
    (before : t.Builds 0 (plan.ahead k) ls cells) (reaches : g.Reaches path (Cell.top 0 cells))
    (stands : Stands m g plan k i s (Cell.top 0 cells)) :
    ∃ high, Built t m g plan k i path ls cells high done := by
  induction plan generalizing k i path ls cells s done with
  | nil =>
    obtain rfl := Option.some.inj settled
    refine ⟨[], ?_, stands, reaches, rfl, fun lower => Cell.pop_zero _⟩
    rw [labels, List.append_nil]
    exact before
  | token blanks l rest ih =>
    obtain ⟨text, between, _, _, onward⟩ := token_of_follow settled
    obtain ⟨next, action, leads, further⟩ := stands.token covers checks built settled
    have shifted := before.shift (rest.ahead k) text between action
    rw [List.append_assoc] at shifted
    obtain ⟨high, more⟩ := ih onward shifted (reaches.step leads) further
    exact ⟨_, more.cons rfl rfl (by simp [labels]) rfl⟩
  | rule n own rest ihOwn ih =>
    obtain ⟨_, _, _, _, _, _, _, onward⟩ := rule_of_follow settled
    obtain ⟨p, inner, next, within, inside, known, reduces, goto, leads, further⟩ :=
      stands.rule covers checks built settled
    rw [ahead_rule] at before
    obtain ⟨high, made⟩ := ihOwn within before reaches inside
    have reduced := made.builds.reduce (reduces _ made.stands) known (made.pops _)
      (by rw [Cell.top_blanks_append]; exact goto)
    obtain ⟨upper, more⟩ := ih onward reduced (reaches.step leads) further
    have trees : high.reverse.flatMap (·.trees) = own.forest g := made.forest
    exact ⟨_, more.cons rfl rfl rfl (by rw [trees]; rfl)⟩

theorem labels_of_first {l : Label} (first : plan.first? = some l) :
    ∃ ls, plan.labels = plan.leading ++ l :: ls := by
  induction plan with
  | nil => cases first
  | token blanks l rest ih =>
    obtain rfl := Option.some.inj first
    exact ⟨_, rfl⟩
  | rule n own rest ihOwn ih =>
    obtain ⟨ls, is⟩ := ihOwn first
    exact ⟨ls ++ rest.labels, by simp [labels, leading, is]⟩

/-- The token that comes first is the first thing that is shifted. -/
theorem Stands.exists_shift (covers : a.Covers g = true) (checks : m.Checks a g = true)
    (built : t.BuiltFrom g) {state : Nat} {l : Label} (stands : Stands m g plan k i s state)
    (first : plan.first? = some l) (settled : plan.follow m a g k s = some done) :
    l.1.isTrivia = false ∧ ∃ next, t.action state l.1 = .shift next := by
  induction plan generalizing i k done with
  | nil => cases first
  | token blanks l rest ih =>
    obtain rfl := Option.some.inj first
    obtain ⟨text, _⟩ := token_of_follow settled
    obtain ⟨next, action, _⟩ := stands.token covers checks built settled
    exact ⟨text, next, action⟩
  | rule n own rest ihOwn ih =>
    obtain ⟨_, _, _, within, inside, _⟩ := stands.rule covers checks built settled
    exact ihOwn inside first within

/-- The plan with all texts left out. -/
def silent : Plan → Plan
  | nil => nil
  | token blanks l rest => token (blanks.map fun b => (b.1, "")) (l.1, "") rest.silent
  | rule n own rest => rule n own.silent rest.silent

theorem symbols_silent (plan : Plan) : plan.silent.symbols = plan.symbols := by
  induction plan <;> simp_all [silent, symbols]

theorem word_silent (plan : Plan) : plan.silent.word = plan.word := by
  induction plan <;> simp_all [silent, word]

/-- The texts do not matter to what is settled. -/
theorem follow_silent (m : Meetings) (a : Ahead) (g : Grammar) (plan : Plan) (k : Kind) (s : Nat) :
    plan.silent.follow m a g k s = plan.follow m a g k s := by
  induction plan generalizing k s with
  | nil => rfl
  | token blanks l rest ih =>
    simp only [silent, follow, List.all_map, ih]
    rfl
  | rule n own rest ihOwn ih =>
    have next : rest.silent.ahead k = rest.ahead k := by rw [ahead, ahead, word_silent]
    rw [silent, follow, follow, next, symbols_silent, ihOwn]
    simp only [ih]

/-- A plan for a whole text that starts with a token, and is settled to its end. -/
def settled (m : Meetings) (a : Ahead) (g : Grammar) (plan : Plan) : Bool :=
  plan.symbols = [.nonterminal g.start] && plan.leading.isEmpty && plan.first?.isSome &&
    m.isClosed g (m.startSet g) && (plan.follow m a g .eof (m.startSet g)).isSome

theorem settled_silent (m : Meetings) (a : Ahead) (g : Grammar) (plan : Plan) :
    plan.silent.settled m a g = plan.settled m a g := by
  have leading : plan.silent.leading.isEmpty = plan.leading.isEmpty := by
    induction plan <;> simp_all [silent, Plan.leading]
  have first : plan.silent.first?.isSome = plan.first?.isSome := by
    clear leading
    induction plan <;> simp_all [silent, Plan.first?]
  simp only [settled, symbols_silent, leading, first, follow_silent]

end Plan

/-- A text with the tokens of a settled plan is parsed to what is planned, without a report. -/
theorem Parser.root_of_plan {g : Grammar} {m : Meetings} {a : Ahead} {p : Parser}
    (covers : a.Covers g = true) (checks : m.Checks a g = true)
    (built : Table.build g = .ok p.language.table) {plan : Plan} (settled : plan.settled m a g = true)
    {text : String} (tokens : (Token.readAll text).map label = plan.labels) {d : Document}
    (parsed : p.parse text = .ok d) :
    d.diagnostics = [] ∧ d.root.plain = .node .sourceFile {} (plan.forest g) := by
  have parts := Table.build_ok built
  simp only [Plan.settled, Bool.and_eq_true, decide_eq_true_eq, List.isEmpty_iff] at settled
  obtain ⟨⟨⟨⟨symbols, tight⟩, begins⟩, closed⟩, ends⟩ := settled
  obtain ⟨l, first⟩ := Option.isSome_iff_exists.1 begins
  obtain ⟨done, follow⟩ := Option.isSome_iff_exists.1 ends
  have stands := Plan.Stands.start checks closed symbols
  have before : p.language.table.Builds 0 (plan.ahead .eof) [] [] := .nil _
  obtain ⟨high, made⟩ := plan.exists_built covers checks parts follow before .start stands
  obtain ⟨solid, next, shift⟩ := stands.exists_shift covers checks parts first follow
  obtain ⟨ls, labels⟩ := Plan.labels_of_first first
  have builds := made.builds
  have reaches := made.reaches
  rw [tight] at builds reaches labels
  rw [symbols] at reaches
  have accept : p.language.table.action (Cell.top 0 (high ++ [])) .eof = .accept := by
    obtain ⟨state, leads⟩ := Grammar.exists_leads g.holds_startItem g.next?_startItem
    have top : Cell.top 0 (high ++ []) = state := reaches.unique (.step .start leads)
    rw [top]
    exact Table.action_eof_accept parts leads
  obtain ⟨u, later, is, head, _⟩ := List.map_eq_cons_iff.1 (tokens.trans labels)
  have kind : u.kind = l.1 := congrArg Prod.fst head
  rw [← made.forest, ← List.append_nil high]
  exact Parser.root_of_builds is (kind ▸ solid) (kind ▸ shift) (tokens ▸ builds) accept parsed

end ShaderTree
