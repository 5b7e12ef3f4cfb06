import ShaderTree.Proofs.Parser.Readings
import ShaderTree.Proofs.Table.Conflicts
import ShaderTree.Proofs.Table.Following
import ShaderTree.Proofs.Table.Prefixes

/-! How levels group operands. An operand is a nonterminal that forwards to the nonterminals of its
operators. What stands to the left of an operator was reduced with the operator's terminal behind it,
where that terminal could have been shifted; what stands to the right of one was not reduced when the
terminal behind its first operand was shifted. Both were settled by levels. -/
namespace ShaderTree

open Token (Label)

def Symbol.isNonterminal : Symbol → Bool
  | .terminal _ => false
  | .nonterminal _ => true

namespace Grammar

variable {g : Grammar} {e p q : Nat} {production other : Production} {state mid : Nat} {i : Item}
  {k : Kind} {x : Symbol} {more : List Symbol}

/-- A production of an operator: the operand `e` can be its nonterminal alone. -/
structure Operand (g : Grammar) (e p : Nat) (production : Production) : Prop where
  rule : g.IsRule p production
  unit : ∃ u unit, g.IsRule u unit ∧ unit.lhs = e ∧ unit.rhs = [.nonterminal production.lhs]

/-- The node that a nonterminal makes. -/
def node? (g : Grammar) (n : Nat) : Option Kind := g.nonterminals[n]?.bind (·.node?)

/-- A nonterminal only stands for others, each of which makes a node. -/
def Forwards (g : Grammar) (e : Nat) : Prop :=
  g.node? e = none ∧ ∀ p production, g.IsRule p production → production.lhs = e →
    ∃ m k, production.rhs = [.nonterminal m] ∧ g.node? m = some k

/-- A nonterminal adds one node to a tree. -/
def Shows (g : Grammar) (n : Nat) : Prop := (∃ k, g.node? n = some k) ∨ g.Forwards n

/-- Whatever the symbol derives starts with the terminal. -/
def StartsWith (g : Grammar) (k : Kind) : Symbol → Prop
  | .terminal l => l = k
  | .nonterminal n => (∃ q inner, g.IsRule q inner ∧ inner.lhs = n) ∧
      ∀ q inner, g.IsRule q inner → inner.lhs = n → inner.rhs.head? = some (.terminal k)

/-- A nonterminal stands nowhere but alone in productions of `e`. -/
def OnlyIn (g : Grammar) (e n : Nat) : Prop :=
  ∀ i, g.next? i = some (.nonterminal n) → i.dot = 0 ∧
    ∃ unit, g.IsRule i.production unit ∧ unit.lhs = e ∧ unit.rhs = [.nonterminal n]

theorem Operand.holds (operand : g.Operand e p production) (holds : g.Holds state i)
    (next : g.next? i = some (.nonterminal e)) : g.Holds state ⟨p, 0⟩ := by
  obtain ⟨u, unit, rule, lhs, rhs⟩ := operand.unit
  have start := holds.start_of rule (lhs ▸ next)
  refine start.start_of operand.rule ?_
  rw [Grammar.next?, rhs_of_isRule rule, rhs]
  rfl

/-- The second terminal of an operator can be shifted behind its first operand. -/
theorem Operand.exists_leads (operand : g.Operand e p production)
    (rhs : production.rhs = .nonterminal e :: x :: more) (second : g.StartsWith k x)
    (holds : g.Holds mid i) (next : g.next? i = some (.nonterminal e))
    (leads : g.Leads mid (.nonterminal e) state) : ∃ target, g.Leads state (.terminal k) target := by
  have own : g.rhs p = .nonterminal e :: x :: more := by rw [rhs_of_isRule operand.rule, rhs]
  have behind : g.Holds state ⟨p, 1⟩ := by
    refine .kernel ((leads.kernel.2 _).2 ⟨⟨p, 0⟩, operand.holds holds next, ?_, rfl⟩)
    rw [Grammar.next?, own]
    rfl
  have symbol : g.next? ⟨p, 1⟩ = some x := by
    rw [Grammar.next?, own]
    rfl
  cases x with
  | terminal l =>
    obtain rfl : l = k := second
    exact exists_leads behind symbol
  | nonterminal n =>
    obtain ⟨⟨q, inner, rule, rfl⟩, first⟩ := second
    obtain ⟨rest, starts⟩ := List.head?_eq_some_iff.1 (first q inner rule rfl)
    refine exists_leads (behind.start_of rule symbol) ?_
    rw [Grammar.next?, rhs_of_isRule rule, starts]
    rfl

/-- A symbol's first terminal is found in front of everything that goes on behind it. -/
theorem mem_ofSymbols_of_startsWith (valid : g.validate = .ok ()) (declared : g.Declared)
    (starts : g.StartsWith k x) (own : ∀ y ∈ more, g.declares y = true) :
    (First.ofSymbols (First.ofGrammar g) (x :: more)).terminals.mem k.index = true := by
  obtain ⟨w, ps, rest⟩ := exists_parses_of_yields fun y inside =>
    yields_of_validate valid declared (own y inside)
  suffices parses : ∃ v ps, g.Parses (x :: more) (k :: v) ps by
    obtain ⟨v, ps, parses⟩ := parses
    exact (First.ofSymbols_complete parses).2 k v rfl
  cases x with
  | terminal l =>
    obtain rfl : l = k := starts
    exact ⟨w, ps, .terminal _ rest⟩
  | nonterminal n =>
    obtain ⟨⟨q, inner, rule, rfl⟩, first⟩ := starts
    obtain ⟨tail, rhs⟩ := List.head?_eq_some_iff.1 (first q inner rule rfl)
    have inside : ∀ y ∈ tail, g.declares y = true := fun y member =>
      declared.declares_rhs q y (by rw [rhs_of_isRule rule, rhs]; exact .tail _ member)
    obtain ⟨v, qs, parses⟩ := exists_parses_of_yields fun y member =>
      yields_of_validate valid declared (inside y member)
    have inside : g.Parses inner.rhs (k :: v) qs := rhs ▸ Parses.terminal k parses
    exact ⟨v ++ w, qs ++ q :: ps, .nonterminal rule inside rest⟩

/-- The second terminal of an operator can stand behind every operand that starts where it does. -/
theorem Operand.looks (valid : g.validate = .ok ()) (declared : g.Declared)
    (operand : g.Operand e p production) (only : g.OnlyIn e production.lhs)
    (holds : g.Holds state ⟨p, 0⟩) (infix' : g.Operand e q other)
    (rhs : other.rhs = .nonterminal e :: x :: more) (second : g.StartsWith k x) :
    g.Looks state ⟨p, 0⟩ k.index := by
  obtain ⟨i, front, next⟩ := holds.exists_front operand.rule
  obtain ⟨dot, unit, rule, lhs, alone⟩ := only i next
  have start : g.Holds state ⟨i.production, 0⟩ := dot ▸ front
  obtain ⟨j, outer, nextJ⟩ := start.exists_front rule
  have own : g.rhs q = .nonterminal e :: x :: more := by rw [rhs_of_isRule infix'.rule, rhs]
  have first : (Spread.behind (.ofGrammar g) ⟨q, 0⟩).terminals.mem k.index = true := by
    change (First.ofSymbols _ ((g.rhs q).drop 1)).terminals.mem k.index = true
    rw [own]
    refine mem_ofSymbols_of_startsWith valid declared second fun y member => ?_
    exact declared.declares_rhs q y (by rw [own]; exact .tail _ (.tail _ member))
  have looks : g.Looks state ⟨i.production, 0⟩ k.index := by
    refine .first (infix'.holds outer (lhs ▸ nextJ)) ?_ (lhs ▸ mem_startsOf_of_isRule rule) first
    rw [Grammar.next?, own]
    rfl
  refine .inherit looks ?_ (mem_startsOf_of_isRule operand.rule) ?_
  · rw [Grammar.next?, rhs_of_isRule rule, alone]
    rfl
  · change (First.ofSymbols _ ((g.rhs i.production).drop 1)).nullable = true
    rw [rhs_of_isRule rule, alone]
    rfl

end Grammar

namespace Table

variable {g : Grammar} {t : Table} {state base q : Nat} {k : Kind}

/-- A terminal that groups to one side settles its conflicts by levels. -/
theorem settled_of_groups (built : Table.build g = .ok t)
    (groups : ∀ b, g.tokenPrecedence? k = some b → b.associativity ≠ .nonassoc) (state : Nat) :
    (∀ p target, t.action state k = .reduce p → g.Leads state (.terminal k) target →
      g.Above p k ∨ g.Level p k .left) ∧
    ∀ p target, t.action state k = .shift target → g.Completes state k p →
      g.Below p k ∨ g.Level p k .right := by
  obtain ⟨reduces, shifts⟩ := (action_settled built state k).1 fun p target _ _ tie => by
    obtain ⟨_, b, _, known, _, nonassoc⟩ := tie
    exact groups b known nonassoc
  exact ⟨fun p target action => (reduces p action).2.2 target, fun p target action =>
    (shifts target action).2 p⟩

namespace Reads

variable {follow : Kind} {xs path : List Symbol} {ls : List Label} {cells : List Cell}

/-- What can stand behind a production is passed on along its reading. -/
theorem looks (built : t.BuiltFrom g) (reads : t.Reads g base follow xs ls cells) {p c : Nat}
    {rest : List Symbol} (rhs : g.rhs p = xs.reverse ++ rest) (looks : g.Looks base ⟨p, 0⟩ c) :
    g.Looks (Cell.top base cells) ⟨p, xs.length⟩ c := by
  have next {x : Symbol} {xs rest : List Symbol} (rhs : g.rhs p = (x :: xs).reverse ++ rest) :
      g.rhs p = xs.reverse ++ x :: rest ∧ g.next? ⟨p, xs.length⟩ = some x := by
    rw [List.reverse_cons, List.append_assoc, List.singleton_append] at rhs
    refine ⟨rhs, ?_⟩
    rw [Grammar.next?, rhs, List.getElem?_append_right (by simp)]
    simp
  induction reads generalizing rest with
  | nil => exact looks
  | token _ _ _ _ action ih =>
    obtain ⟨rhs, symbol⟩ := next rhs
    exact (ih rhs looks).pass symbol (leads_of_shift built action)
  | rule _ _ _ _ _ _ _ goto ih =>
    obtain ⟨rhs, symbol⟩ := next rhs
    exact (ih rhs looks).pass symbol (leads_of_goto built goto).2

/-- A production that is reduced from a reading starts where the reading does. -/
theorem holds_start (built : t.BuiltFrom g) {p : Nat} {production : Production}
    (reaches : g.Reaches path base) (rule : g.IsRule p production)
    (reads : t.Reads g base follow production.rhs.reverse ls cells)
    (action : t.action (Cell.top base cells) k = .reduce p) : g.Holds base ⟨p, 0⟩ := by
  obtain ⟨d, holds, complete, _⟩ := holds_of_reduce built action
  have after := reads.reaches built reaches
  obtain ⟨length, _, base', before, start⟩ := after.read_complete holds complete
  rw [← length, Grammar.rhs_of_isRule rule, ← List.length_reverse, List.drop_left] at before
  obtain rfl := before.unique reaches
  exact start

theorem exists_shift_terminal (reads : t.Reads g base follow (xs ++ [.terminal k]) ls cells) :
    (∃ next, t.action base k = .shift next) ∧ ∀ follow', Token.ahead follow' ls = k := by
  obtain ⟨front, gap, back, high, low, rfl, _, _, first, _⟩ := reads.exists_cut
  cases first with
  | token _ before text between action =>
    cases before
    refine ⟨⟨_, action⟩, fun follow' => ?_⟩
    rw [Token.ahead_append, Token.ahead_append, Token.ahead_append, Token.ahead_token text,
      List.nil_append, Token.ahead_blanks between]

/-- A reading starts with the shift of its first terminal. -/
theorem exists_shift {x : Symbol} (reads : t.Reads g base follow (xs ++ [x]) ls cells)
    (starts : g.StartsWith k x) :
    (∃ next, t.action base k = .shift next) ∧ ∀ follow', Token.ahead follow' ls = k := by
  cases x with
  | terminal l =>
    obtain rfl : l = k := starts
    exact reads.exists_shift_terminal
  | nonterminal n =>
    obtain ⟨_, heads⟩ := starts
    obtain ⟨front, gap, back, high, low, rfl, _, _, first, _⟩ := reads.exists_cut
    cases first with
    | rule before inside tight between rule known action goto =>
      cases before
      obtain ⟨tail, rhs⟩ := List.head?_eq_some_iff.1 (heads _ _ rule rfl)
      rw [rhs, List.reverse_cons] at inside
      obtain ⟨shifts, ahead⟩ := inside.exists_shift_terminal
      refine ⟨shifts, fun follow' => ?_⟩
      rw [Token.ahead_append, Token.ahead_append, Token.ahead_append, ahead, List.nil_append,
        Token.ahead_blanks between]

/-- The last symbol of a reading leads to the state on top of it. -/
theorem exists_leads {n : Nat} (built : t.BuiltFrom g)
    (reads : t.Reads g base follow (.nonterminal n :: xs) ls cells) :
    ∃ below cell, cells = cell :: below ∧
      g.Leads (Cell.top base below) (.nonterminal n) (Cell.top base cells) := by
  cases reads with
  | rule _ _ _ _ _ _ _ goto =>
    refine ⟨_, _, rfl, ?_⟩
    rw [Cell.top_blanks_append]
    exact (leads_of_goto built goto).2

variable {e p : Nat} {production other : Production} {x : Symbol} {front more : List Symbol}

/-- An operand is the node of an operator. -/
theorem exists_operand (built : t.BuiltFrom g) (forwards : g.Forwards e)
    (reads : t.Reads g base follow (.nonterminal e :: xs) ls cells) :
    ∃ p production k state below ls' cells', g.Operand e p production ∧
      g.node? production.lhs = some k ∧
      cells = ⟨state, true, [.node k {} (Cell.forest cells')]⟩ :: below ∧
      t.Reads g (Cell.top base below) follow production.rhs.reverse ls' cells' ∧
      t.action (Cell.top (Cell.top base below) cells') follow = .reduce p := by
  obtain ⟨hidden, stands⟩ := forwards
  have node {p : Nat} {production : Production} {r : Reduction} (rule : g.IsRule p production)
      (known : t.reductions[p]? = some r) : r.node? = g.node? production.lhs := by
    obtain ⟨_, found, _, _, _, node⟩ := reduction_eq built known
    obtain rfl := Option.some.inj (rule.1.symm.trans found)
    exact node
  cases reads with
  | @rule _ next u _ _ gap _ _ cells₀ _ unit r before inside tight between rule known =>
    obtain ⟨m, k, rhs, own⟩ := stands u unit rule rfl
    rw [rhs, List.reverse_singleton] at inside
    cases inside with
    | @rule _ _ p _ _ _ ls' _ cells₁ cells' production r' before' inside' tight' between' rule' known'
        action' goto' =>
      have whole := before'.rule inside' tight' between' rule' known' action' goto'
      have trees : r.trees (r'.trees (Cell.forest cells') ++ []) = [.node k {} (Cell.forest cells')] := by
        rw [Reduction.trees, node rule known, hidden, Reduction.trees, node rule' known', own]
        rfl
      refine ⟨p, production, k, next, Cell.blanks (Cell.top base cells₀) gap ++ cells₀, ls', cells',
        ⟨rule', u, unit, rule, rfl, rhs⟩, own, ?_, ?_, ?_⟩
      · rw [whole.eq_singleton tight]
        exact congrArg (fun us => Cell.mk next true us :: _) trees
      · cases before'
        rw [Cell.top_blanks_append]
        exact inside'
      · cases before'
        rw [Cell.top_blanks_append]
        exact action'

/-- An operator that ends with an operand and was reduced with the terminal of another one behind it is
above that terminal, or level with it and grouping to the left. -/
theorem groups_left (built : Table.build g = .ok t)
    (groups : ∀ b, g.tokenPrecedence? k = some b → b.associativity ≠ .nonassoc)
    (right : g.Operand e q other) (rightRhs : other.rhs = .nonterminal e :: x :: more)
    (second : g.StartsWith k x) (leftRhs : production.rhs = front ++ [.nonterminal e])
    (rule : g.IsRule p production) (reads : t.Reads g base k production.rhs.reverse ls cells)
    (reaches : g.Reaches path base) (action : t.action (Cell.top base cells) k = .reduce p) :
    g.Above p k ∨ g.Level p k .left := by
  have parts := build_ok built
  obtain ⟨d, holds, complete, _⟩ := holds_of_reduce parts action
  obtain ⟨length, _⟩ := (reads.reaches parts reaches).read_complete holds complete
  rw [leftRhs, List.reverse_append] at reads
  obtain ⟨below, cell, rfl, leads⟩ := reads.exists_leads parts
  have last : d = front.length + 1 := by
    rw [← length, Grammar.rhs_of_isRule rule, leftRhs, List.length_append]
    rfl
  subst last
  obtain ⟨open', symbol⟩ := leads.before holds
  obtain ⟨target, shift⟩ := right.exists_leads rightRhs second open' symbol leads
  exact (settled_of_groups built groups _).1 p target action shift

/-- An operator with an operand at its end that starts with an operand again is below the terminal behind
that one, or level with it and grouping to the right. -/
theorem groups_right (built : Table.build g = .ok t) (declared : g.Declared)
    (groups : ∀ b, g.tokenPrecedence? k = some b → b.associativity ≠ .nonassoc)
    (left : g.Operand e p production) (only : g.OnlyIn e production.lhs)
    (leftRhs : production.rhs = front ++ [.nonterminal e])
    (reads : t.Reads g base follow production.rhs.reverse ls cells) (reaches : g.Reaches path base)
    (action : t.action (Cell.top base cells) follow = .reduce p) (right : g.Operand e q other)
    (rightRhs : other.rhs = .nonterminal e :: x :: more) (second : g.StartsWith k x) {cell : Cell}
    {below cells' : List Cell} {ls' : List Label} (stack : cells = cell :: below)
    (inside : t.Reads g (Cell.top base below) follow other.rhs.reverse ls' cells') :
    g.Below p k ∨ g.Level p k .right := by
  have parts := build_ok built
  have start := reads.holds_start parts reaches left.rule action
  have looks := left.looks parts.valid declared only start right rightRhs second
  have own : g.rhs p = production.rhs.reverse.reverse ++ [] := by
    rw [Grammar.rhs_of_isRule left.rule, List.reverse_reverse, List.append_nil]
  have passed := reads.looks parts own looks
  rw [List.length_reverse] at passed
  have completes : g.Completes (Cell.top base cells) k p := by
    obtain ⟨_, _, _, other⟩ := holds_of_reduce parts action
    exact ⟨other, _, passed, by rw [Grammar.rhs_of_isRule left.rule]⟩
  rw [leftRhs, List.reverse_append] at reads
  obtain ⟨_, _, is, leads⟩ := reads.exists_leads parts
  obtain ⟨rfl, rfl⟩ := List.cons.inj (stack.symm.trans is)
  rw [rightRhs, List.reverse_cons] at inside
  obtain ⟨front', gap, back, high, low, _, _, _, first, others⟩ := inside.exists_cut
  obtain ⟨below', cell', rfl, leads'⟩ := first.exists_leads parts
  obtain ⟨_, blanks, is, _⟩ := first.exists_single
  obtain ⟨rfl, rfl⟩ := List.cons.inj is
  rw [Cell.top_blanks] at leads'
  have same := leads.unique leads'
  rw [List.reverse_cons] at others
  obtain ⟨⟨next, shift⟩, _⟩ := others.exists_shift second
  rw [← same] at shift
  exact (settled_of_groups built groups _).2 p next shift completes

end Reads

end Table

/-! What shows of operands in a tree -/

namespace Tree

/-- The nodes among some trees. -/
def innerNodes (ts : List Tree) : List Tree := ts.filter (!·.isLeaf)

/-- Kind of the first token among some trees, blanks and comments apart. -/
def token? (ts : List Tree) : Option Kind :=
  (ts.find? fun u => u.isLeaf && !u.kind.isTrivia).map (·.kind)

variable {blanks : List Label}

theorem innerNodes_append (ts us : List Tree) : innerNodes (ts ++ us) = innerNodes ts ++ innerNodes us :=
  List.filter_append ..

theorem innerNodes_leaves (labels : List Label) :
    innerNodes (labels.map fun l => .leaf l.1 l.2) = [] := by
  refine List.filter_eq_nil_iff.2 fun u member => ?_
  obtain ⟨l, _, rfl⟩ := List.mem_map.1 member
  simp [isLeaf]

theorem token?_append (ts us : List Tree) : token? (ts ++ us) = (token? ts).or (token? us) := by
  simp only [token?, List.find?_append]
  cases ts.find? fun u => u.isLeaf && !u.kind.isTrivia <;> rfl

theorem token?_blanks (between : ∀ b ∈ blanks, b.1.isTrivia = true) :
    token? (blanks.map fun l => .leaf l.1 l.2) = none := by
  rw [token?, Option.map_eq_none_iff, List.find?_eq_none]
  intro u member
  obtain ⟨b, inside, rfl⟩ := List.mem_map.1 member
  simp [kind, between b inside]

end Tree

namespace Table.Reads

open ShaderTree.Tree (innerNodes token?)

variable {g : Grammar} {t : Table} {base e n : Nat} {k follow : Kind} {xs : List Symbol}
  {ls : List Label} {cells : List Cell}

theorem exists_node (built : t.BuiltFrom g) (shows : g.Shows n)
    (reads : t.Reads g base follow (.nonterminal n :: xs) ls cells) :
    ∃ state k cs below, cells = ⟨state, true, [.node k {} cs]⟩ :: below := by
  rcases shows with ⟨k, own⟩ | forwards
  · cases reads with
    | rule _ _ _ _ rule known =>
      obtain ⟨_, found, _, _, _, node⟩ := reduction_eq built known
      obtain rfl := Option.some.inj (rule.1.symm.trans found)
      change _ = g.node? _ at node
      exact ⟨_, k, _, _, by rw [Reduction.trees, node, own]⟩
  · obtain ⟨_, _, k, _, _, _, _, _, _, is, _⟩ := reads.exists_operand built forwards
    exact ⟨_, k, _, _, is⟩

/-- Nonterminals that show make one node each. -/
theorem length_innerNodes (built : t.BuiltFrom g) (reads : t.Reads g base follow xs ls cells)
    (shows : ∀ n, .nonterminal n ∈ xs → g.Shows n) :
    (innerNodes (Cell.forest cells)).length = xs.countP (·.isNonterminal) := by
  induction reads with
  | nil => rfl
  | token _ _ _ _ _ ih =>
    have others := ih fun n member => shows n (.tail _ member)
    rw [Cell.forest_cons, Cell.forest_append, Cell.forest_blanks, Tree.innerNodes_append,
      Tree.innerNodes_append, Tree.innerNodes_leaves,
      List.countP_cons_of_neg (by simp [Symbol.isNonterminal]), ← others]
    simp [innerNodes, Tree.isLeaf]
  | rule before inside tight between rule known action goto ih =>
    have others := ih fun n member => shows n (.tail _ member)
    obtain ⟨_, k, cs, _, is⟩ := exists_node built (shows _ (.head _))
      (before.rule inside tight between rule known action goto)
    obtain ⟨is, _⟩ := List.cons.inj is
    rw [is, Cell.forest_cons, Cell.forest_append, Cell.forest_blanks, Tree.innerNodes_append,
      Tree.innerNodes_append, Tree.innerNodes_leaves, List.countP_cons_of_pos rfl, ← others]
    simp [innerNodes, Tree.isLeaf]

/-- The first token of a reading that starts with it. -/
theorem token?_of_terminal (reads : t.Reads g base follow (xs ++ [.terminal k]) ls cells) :
    token? (Cell.forest cells) = some k := by
  obtain ⟨_, _, _, high, low, _, rfl, _, first, _⟩ := reads.exists_cut
  cases first with
  | token _ before text between =>
    cases before
    rw [Cell.forest_append, Cell.forest_append, Cell.forest_cons, Cell.forest_append, Cell.forest_blanks,
      Tree.token?_append, Tree.token?_append, Tree.token?_append, Tree.token?_append,
      Tree.token?_blanks between]
    simp [Cell.forest, token?, Tree.isLeaf, Tree.kind, text]

/-- The first token of a reading that starts with a node and then has the token. -/
theorem token?_of_node (built : t.BuiltFrom g) (shows : g.Shows n)
    (reads : t.Reads g base follow (xs ++ [.terminal k, .nonterminal n]) ls cells) :
    token? (Cell.forest cells) = some k := by
  rw [show xs ++ [.terminal k, .nonterminal n] = (xs ++ [.terminal k]) ++ [.nonterminal n] by simp]
    at reads
  obtain ⟨_, gap, _, high, low, _, rfl, gaps, first, others⟩ := reads.exists_cut
  obtain ⟨_, l, cs, _, rfl⟩ := first.exists_node built shows
  obtain ⟨_, blanks, is, _, between⟩ := first.exists_single
  obtain ⟨rfl, rfl⟩ := List.cons.inj is
  rw [Cell.forest_append, Cell.forest_append, Cell.forest_cons, Cell.forest_blanks, Cell.forest_blanks,
    Tree.token?_append, Tree.token?_append, Tree.token?_append, Tree.token?_blanks between,
    Tree.token?_blanks gaps, others.token?_of_terminal]
  simp [token?, Tree.isLeaf]

/-- The first node of a reading that starts with an operand. -/
theorem exists_first_operand (built : t.BuiltFrom g) (forwards : g.Forwards e)
    (reads : t.Reads g base follow (xs ++ [.nonterminal e]) ls cells) :
    ∃ p production k back ls' cells' mid high, g.Operand e p production ∧
      g.node? production.lhs = some k ∧
      (innerNodes (Cell.forest cells)).head? = some (.node k {} (Cell.forest cells')) ∧
      t.Reads g base (Token.ahead follow back) production.rhs.reverse ls' cells' ∧
      t.action (Cell.top base cells') (Token.ahead follow back) = .reduce p ∧
      t.Reads g mid follow xs back high := by
  obtain ⟨_, gap, back, high, low, _, rfl, gaps, first, others⟩ := reads.exists_cut
  obtain ⟨p, production, k, state, below, ls', cells', operand, own, rfl, inside, action⟩ :=
    first.exists_operand built forwards
  obtain ⟨_, blanks, is, _, between⟩ := first.exists_single
  obtain ⟨rfl, rfl⟩ := List.cons.inj is
  rw [Cell.top_blanks] at inside action
  refine ⟨p, production, k, back, ls', cells', _, high, operand, own, ?_, inside, action, others⟩
  rw [Cell.forest_append, Cell.forest_append, Cell.forest_cons, Cell.forest_blanks, Cell.forest_blanks,
    Tree.innerNodes_append, Tree.innerNodes_append, Tree.innerNodes_append, Tree.innerNodes_leaves,
    Tree.innerNodes_leaves]
  simp [innerNodes, Tree.isLeaf]

/-- The last node of a reading that ends with an operand. -/
theorem exists_last_operand (built : t.BuiltFrom g) (forwards : g.Forwards e)
    (reads : t.Reads g base follow (.nonterminal e :: xs) ls cells) :
    ∃ p production k cell below ls' cells', g.Operand e p production ∧
      g.node? production.lhs = some k ∧ cells = cell :: below ∧
      (innerNodes (Cell.forest cells)).getLast? = some (.node k {} (Cell.forest cells')) ∧
      t.Reads g (Cell.top base below) follow production.rhs.reverse ls' cells' := by
  obtain ⟨p, production, k, state, below, ls', cells', operand, own, rfl, inside, _⟩ :=
    reads.exists_operand built forwards
  refine ⟨p, production, k, _, below, ls', cells', operand, own, rfl, ?_, inside⟩
  rw [Cell.forest_cons, Tree.innerNodes_append]
  simp [innerNodes, Tree.isLeaf]

end Table.Reads

end ShaderTree
