import ShaderTree.Proofs.Metal.Sharing
import ShaderTree.Proofs.Parser.Provenance
import ShaderTree.Proofs.Parser.ScanErrors
import ShaderTree.Proofs.Parser.Unspaced

/-! What the record of a node is evidence of. A piece of the stack that shifts and reductions build is what
the plain table builds of the tokens alone, without blanks, without repairs and without a look below the
state that it starts on; and a node keeps a record only where the table builds it so. -/
namespace ShaderTree

open Relation (ReflTransGen)
open Token (Label kindOf unspaced)
open ShaderTree.Tree (gist)

/-- Symbols above a state, top first: the states behind them and the trees that they stand for. -/
abbrev Pile := List (Nat × List Tree)

/-- State on top of some symbols on a state. -/
def Pile.top (base : Nat) : Pile → Nat
  | [] => base
  | x :: _ => x.1

namespace Table

variable {t : Table} {base : Nat} {follow k : Kind}

/-- One shift or reduction of the table, on symbols above a state and tokens with a terminal behind them.
There is none where the table has no entry or accepts, where the tokens are used up, and where the symbols
above the state are too few for the reduction. -/
def act? (t : Table) (base : Nat) (follow : Kind) : Pile × List Label → Option (Pile × List Label)
  | (pile, input) =>
    match t.action (pile.top base) (kindOf follow input), input with
    | .shift next, l :: rest => some ((next, [.leaf l.1 l.2]) :: pile, rest)
    | .reduce p, _ =>
      (t.reductions[p]?.filter (·.length ≤ pile.length)).bind fun r =>
        (t.goto? (Pile.top base (pile.drop r.length)) r.lhs).map fun next =>
          ((next, r.trees ((pile.take r.length).reverse.flatMap (·.2))) :: pile.drop r.length, input)
    | _, _ => none

/-- The actions lead from one pair to the other. As each pair has at most one action, they are all that the
table does in between. -/
def Acts (t : Table) (base : Nat) (follow : Kind) : Pile × List Label → Pile × List Label → Prop :=
  ReflTransGen fun x y => t.act? base follow x = some y

end Table

namespace Cell

variable {base n : Nat} {cells popped below : List Cell}

/-- The symbols among some cells, with their trees without blanks and marks. -/
def pile (cells : List Cell) : Pile := (cells.filter (·.isSymbol)).map fun c => (c.state, gist c.trees)

/-- Cells that are no symbols are blanks, and repeat the state below them. -/
def Level (base : Nat) : List Cell → Prop
  | [] => True
  | c :: below => (c.isSymbol = false → c.state = top base below ∧ gist c.trees = []) ∧ Level base below

theorem top_pile (level : Level base cells) : Pile.top base (pile cells) = top base cells := by
  induction cells with
  | nil => rfl
  | cons c below ih =>
    cases role : c.isSymbol with
    | true => simp [pile, role, Pile.top, top]
    | false =>
      obtain ⟨same, _⟩ := level.1 role
      rw [top, same, ← ih level.2]
      simp [pile, role]

theorem pile_blanks (state : Nat) (labels : List Label) (cells : List Cell) :
    pile (blanks state labels ++ cells) = pile cells := by
  have none : (blanks state labels).filter (·.isSymbol) = [] := by
    refine List.filter_eq_nil_iff.2 fun c member => ?_
    obtain ⟨b, _, rfl⟩ := List.mem_map.1 (List.mem_reverse.1 member)
    exact Bool.false_ne_true
  rw [pile, pile, List.filter_append, none, List.nil_append]

theorem Level.blanks {labels : List Label} (level : Level base cells)
    (between : ∀ b ∈ labels, b.1.isTrivia = true) :
    Level base (blanks (top base cells) labels ++ cells) := by
  suffices every : ∀ labels : List Label, (∀ b ∈ labels, b.1.isTrivia = true) → Level base
      (labels.map (fun l => (⟨top base cells, false, [.leaf l.1 l.2]⟩ : Cell)) ++ cells) by
    have reversed := every labels.reverse fun b member => between b (List.mem_reverse.1 member)
    rwa [List.map_reverse] at reversed
  intro labels between
  induction labels with
  | nil => exact level
  | cons l labels ih =>
    obtain ⟨own, others⟩ := List.forall_mem_cons.1 between
    refine ⟨fun _ => ⟨?_, (Tree.gist_blank own _ _).trans Tree.gist_nil⟩, ih others⟩
    cases labels <;> rfl

/-- Taking cells off takes off as many symbols. -/
theorem Level.pop (level : Level base cells) (pops : Cell.pop n cells = some (popped, below)) :
    Level base below ∧ n ≤ (pile cells).length ∧ (pile cells).drop n = pile below ∧
      ((pile cells).take n).reverse.flatMap (·.2) = gist (popped.flatMap (·.trees)) := by
  induction cells generalizing n popped below with
  | nil =>
    cases n with
    | zero =>
      obtain ⟨rfl, rfl⟩ := Prod.mk.inj (Option.some.inj pops)
      exact ⟨level, Nat.zero_le _, rfl, by simp⟩
    | succ n => cases pops
  | cons c cells ih =>
    cases n with
    | zero =>
      obtain ⟨rfl, rfl⟩ := Prod.mk.inj (Option.some.inj pops)
      exact ⟨level, Nat.zero_le _, rfl, by simp⟩
    | succ n =>
      rw [Cell.pop, Option.map_eq_some_iff] at pops
      obtain ⟨⟨inner, rest⟩, pops, is⟩ := pops
      obtain ⟨rfl, rfl⟩ := Prod.mk.inj is
      obtain ⟨level', enough, left, taken⟩ := ih level.2 pops
      cases role : c.isSymbol with
      | true =>
        rw [role, if_pos rfl] at enough left taken
        have front : pile (c :: cells) = (c.state, gist c.trees) :: pile cells := by simp [pile, role]
        rw [front]
        exact ⟨level', Nat.succ_le_succ enough, left, by simp [taken]⟩
      | false =>
        rw [role, if_neg Bool.false_ne_true] at enough left taken
        have front : pile (c :: cells) = pile cells := by simp [pile, role]
        rw [front]
        exact ⟨level', enough, left, by simp [taken, (level.1 role).2]⟩

end Cell

theorem Reduction.gist_trees (r : Reduction) (below : List Tree) :
    gist (r.trees below) = r.trees (gist below) := by
  unfold trees
  split
  · rfl
  · rw [Tree.gist_node, Tree.gist_nil]

namespace Tree

theorem nodesAll_flatMap {α : Type} (f : α → List Tree) (xs : List α) :
    nodesAll (xs.flatMap f) = xs.flatMap fun x => nodesAll (f x) := by
  induction xs with
  | nil => rfl
  | cons x xs ih => rw [List.flatMap_cons, List.flatMap_cons, nodesAll_append, ih]

end Tree

namespace Table

variable {t : Table} {base : Nat} {k : Kind} {ls : List Label} {cells : List Cell}

/-- What is built is built by the plain table, whatever stands behind the tokens. -/
theorem Builds.acts (builds : t.Builds base k ls cells) : Cell.Level base cells ∧
    ∀ follow rest, kindOf follow rest = k →
      t.Acts base follow ([], unspaced ls ++ rest) (Cell.pile cells, rest) := by
  induction builds with
  | nil follow => exact ⟨trivial, fun _ _ _ => .refl⟩
  | @shift behind l ls blanks cells next before text between action ih =>
    obtain ⟨level, acts⟩ := ih
    refine ⟨⟨fun is => Bool.noConfusion is, level.blanks between⟩, fun follow rest _ => ?_⟩
    have first := acts follow (l :: rest) rfl
    have input : unspaced (ls ++ blanks ++ [l]) ++ rest = unspaced ls ++ l :: rest := by
      have none : unspaced blanks = [] :=
        List.filter_eq_nil_iff.2 fun b member => by simp [Token.isBlank, between b member]
      have own : unspaced [l] = [l] := Token.unspaced_cons text []
      rw [Token.unspaced_append, Token.unspaced_append, none, own, List.append_nil, List.append_assoc,
        List.singleton_append]
    have shown : Cell.pile (⟨next, true, [.leaf l.1 l.2]⟩ ::
        (Cell.blanks (Cell.top base cells) blanks ++ cells)) =
          (next, [.leaf l.1 l.2]) :: Cell.pile cells := by
      have own : gist [.leaf l.1 l.2] = [.leaf l.1 l.2] := by rw [Tree.gist_leaf text, Tree.gist_nil]
      rw [← Cell.pile_blanks (Cell.top base cells) blanks cells]
      simp [Cell.pile, own]
    rw [input, shown]
    refine first.tail ?_
    have entry : t.action (Pile.top base (Cell.pile cells)) l.1 = .shift next := by
      rwa [Cell.top_pile level]
    simp [act?, kindOf, entry]
  | @reduce behind ls cells popped below p next r before action known pops goto ih =>
    obtain ⟨level, acts⟩ := ih
    obtain ⟨level', enough, left, taken⟩ := level.pop pops
    refine ⟨⟨fun is => Bool.noConfusion is, level'⟩, fun follow rest is => (acts follow rest is).tail ?_⟩
    have entry : t.action (Pile.top base (Cell.pile cells)) (kindOf follow rest) = .reduce p := by
      rwa [Cell.top_pile level, is]
    have target : t.goto? (Pile.top base (Cell.pile below)) r.lhs = some next := by
      rwa [Cell.top_pile level']
    have shown : Cell.pile (⟨next, true, r.trees (popped.flatMap (·.trees))⟩ :: below) =
        (next, r.trees (gist (popped.flatMap (·.trees)))) :: Cell.pile below := by
      simp [Cell.pile, Reduction.gist_trees]
    rw [shown]
    have whole : t.reductions[p]?.filter (·.length ≤ (Cell.pile cells).length) = some r := by
      rw [known, Option.filter_some, if_pos (decide_eq_true enough)]
    simp [act?, entry, whole, left, target, taken]

/-- What is built has nodes of reductions only. -/
theorem Builds.exists_reduction (builds : t.Builds base k ls cells) :
    ∀ c ∈ cells, ∀ v ∈ Tree.nodesAll c.trees,
      ∃ (p : Nat) (r : Reduction), t.reductions[p]? = some r ∧ r.node? = some v.kind := by
  induction builds with
  | nil => simp
  | shift _ before text between action ih =>
    intro c member v here
    rcases List.mem_cons.1 member with rfl | member
    · simp [Tree.nodesAll, Tree.nodes] at here
    · rcases List.mem_append.1 member with blank | old
      · obtain ⟨b, _, rfl⟩ := List.mem_map.1 (List.mem_reverse.1 blank)
        simp [Tree.nodesAll, Tree.nodes] at here
      · exact ih c old v here
  | @reduce behind ls cells popped below p next r before action known pops goto ih =>
    have split := Cell.pop_split pops
    have inside (c : Cell) (member : c ∈ popped ∨ c ∈ below) := ih c (by rw [split]; simpa using member)
    intro c member
    rcases List.mem_cons.1 member with rfl | old
    · have deeper : ∀ v ∈ Tree.nodesAll (popped.flatMap (·.trees)),
          ∃ (p : Nat) (r : Reduction), t.reductions[p]? = some r ∧ r.node? = some v.kind := by
        intro v here
        rw [Tree.nodesAll_flatMap] at here
        obtain ⟨c, taken, here⟩ := List.mem_flatMap.1 here
        exact inside c (.inl taken) v here
      unfold Reduction.trees
      split
      · exact deeper
      · rename_i kind node
        intro v here
        rw [Tree.nodesAll, Tree.nodesAll, List.append_nil, Tree.nodes] at here
        rcases List.mem_cons.1 here with rfl | here
        · exact ⟨p, r, known, node⟩
        · exact deeper v here
    · exact inside c (.inr old)

end Table

namespace Tree

theorem gist_plainAll (ts : List Tree) : gist (plainAll ts) = gist ts := by
  cases ts with
  | nil => rfl
  | cons t ts =>
    cases t with
    | leaf k text =>
      rw [plainAll, plain]
      cases blank : k.isTrivia with
      | true => rw [gist_blank blank, gist_blank blank, gist_plainAll ts]
      | false => rw [gist_leaf blank, gist_leaf blank, gist_plainAll ts]
    | node k m cs => rw [plainAll, plain, gist_node, gist_node, gist_plainAll cs, gist_plainAll ts]

/-- A record of the node is evidence of it. The node has text, and neither nodes of repairs nor error
tokens. The table, on the state of the record alone and reading the tokens of the node without blanks, with
the terminal of the record behind them, makes the node of them and goes to where the nonterminal of the
node leads. -/
structure Evident (t : Table) (u : Tree) (x : Record) : Prop where
  size : u.size ≠ 0
  nodes : ∀ v ∈ u.nodes, v.kind ≠ .error ∧ v.kind ≠ .missing
  leaves : ∀ l ∈ u.leaves, l.1 ≠ .error
  acts : ∃ n next, t.nonterminalOf? u.kind = some n ∧ t.goto? x.state n = some next ∧
    t.Acts x.state x.follow ([], unspaced u.leaves) ([(next, [u.bare.plain])], [])

theorem evident_of_builds {g : Grammar} {t : Table} (built : t.BuiltFrom g) (names : g.NamesNodes)
    (named : t.Named) {u : Tree} {x : Record} (made : t.Makes u.kind u.record? u.size)
    (clean : u.Clean) (remembered : u.Remembered t) (recorded : u.record? = some x) :
    u.Evident t x := by
  cases u with
  | leaf => cases recorded
  | node k m cs =>
    rw [recorded] at made
    cases made with
    | reduction known node recorded' =>
      obtain ⟨size, next, goto⟩ := recorded' x rfl
      have own := named known node
      have builds := remembered x next recorded (by rw [own]; exact goto)
      refine ⟨size, fun v inside => ?_, clean, _, next, own, goto, ?_⟩
      · have inside' : v.plain ∈ nodesAll [(Tree.node k m cs).plain] := by
          rw [nodesAll, nodesAll, List.append_nil, nodes_plain]
          exact List.mem_map_of_mem inside
        obtain ⟨p, r, known, node⟩ := builds.exists_reduction _ (List.mem_singleton_self _) _ inside'
        obtain ⟨production, _, _, _, _, is⟩ := Table.reduction_eq built known
        rw [kind_plain, is] at node
        obtain ⟨n, found, named⟩ := Option.bind_eq_some_iff.1 node
        obtain ⟨notError, notMissing, _⟩ := names.reserved found named
        exact ⟨notError, notMissing⟩
      · have acts := builds.acts.2 x.follow [] rfl
        have whole : gist [(Tree.node k m cs).plain] = [(Tree.node k m cs).bare.plain] := by
          rw [plain_bare_node, plain, gist_node, gist_nil, gist_plainAll]
        simpa [Cell.pile, whole] using acts

end Tree

theorem Document.Item.mem_nodes {d : Document} (n : d.Item) : n.node ∈ d.root.nodes := by
  have own : n.node ∈ n.node.nodes := by
    cases node : n.node with
    | leaf => simpa [node, Tree.isLeaf] using n.isNode
    | node => exact .head _
  have split := n.split
  cases root : d.root with
  | leaf => simp [root, Tree.children] at split
  | node k m cs =>
    rw [root, Tree.children] at split
    rw [Tree.nodes, split, Tree.nodesAll_append, Tree.nodesAll]
    exact .tail _ (List.mem_append_right _ (List.mem_append_left _ own))

namespace Metal

/-- Records are evidence: however often a text was changed and parsed again, and under whatever options,
each node of the tree that keeps a record is what the table makes, by shifts and reductions alone, of its
tokens on the state of the record, with the terminal of the record behind them. -/
theorem records_evident {t : Table} (built : table = .ok t) {text : String} {d : Document}
    (parsed : Parsed (fun l => table = .ok l.table) text d) :
    ∀ u ∈ d.root.nodes, ∀ x, u.record? = some x → u.Evident t x := by
  intro u inside x recorded
  refine Tree.evident_of_builds (Table.build_ok built) namesNodes (named built)
    ((parsed.grown built).nodes u inside) ?_ (allRemembered built parsed u inside) recorded
  exact (parsed.lexical readsNoErrors).2 u inside (by simp [recorded])

/-- The second of two namespaces, after the first one got another name. -/
theorem records_evident_renamed : ∃ (p : Parser) (old d : Document) (u : Tree) (state : Nat),
    table = .ok p.language.table ∧ p.parse "namespace a{}namespace b{}" = .ok old ∧
      p.reparse old [⟨10, 11, 12⟩] "namespace cc{}namespace b{}" = .ok d ∧
        u ∈ d.root.nodes ∧ u.plain = namespaceTree "b" ∧ u.record? = some ⟨state, .eof⟩ ∧
          u.Evident p.language.table ⟨state, .eof⟩ := by
  obtain ⟨t, built⟩ := exists_table
  let p : Parser := ⟨⟨"metal", t, 0⟩, {}⟩
  have changed : Change.applyAll "namespace a\x7b\x7dnamespace b\x7b\x7d" [⟨10, 11, "cc"⟩] =
      .ok ([⟨10, 11, 12⟩], "namespace cc\x7b\x7dnamespace b\x7b\x7d") := by
    decide
  have labels : (Token.readAll "namespace a\x7b\x7dnamespace b\x7b\x7d").map Token.label =
      namespaceLabels "a" ++ namespaceLabels "b" := by
    with_unfolding_all decide
  have labels' : (Token.readAll "namespace cc\x7b\x7dnamespace b\x7b\x7d").map Token.label =
      namespaceLabels "cc" ++ namespaceLabels "b" := by
    with_unfolding_all decide
  obtain ⟨old, parsed, _⟩ := parse_namespaces (p := p) built labels
  obtain ⟨fresh, freshly, silent, root⟩ := parse_namespaces (p := p) built labels'
  obtain ⟨d, fresh', again, freshly', _, shape, reports⟩ :=
    exists_reparse (p := p) built (.parse built parsed) changed
  obtain rfl := Except.ok.inj (freshly.symm.trans freshly')
  obtain ⟨n, _, node, follow, _⟩ := exists_second (shape.trans root)
  have chain : Parsed (fun l => table = .ok l.table) _ d :=
    .reparse (p := p) built (.parse built parsed) changed again
  obtain ⟨state, _, recorded, _⟩ :=
    (recorded_of_parsed (p := p) built chain (reports.trans silent) n).record
  rw [follow] at recorded
  have inside : n.node ∈ d.root.nodes := n.mem_nodes
  exact ⟨p, old, d, n.node, state, built, parsed, again, inside, node, recorded,
    records_evident built chain n.node inside _ recorded⟩

end Metal

end ShaderTree
