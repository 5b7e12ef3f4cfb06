import ShaderTree.Proofs.Parser.Beginnings
import ShaderTree.Proofs.Parser.Trim
import ShaderTree.Proofs.Tree.Leaves

/-! The nodes right below the root. A tree without reports is a list of items, and each of them records
where it stands: the state in front of it and the kind of the token behind it. So a later parse that comes
to such a place finds the old item, before any node inside it, and takes it over. -/
namespace ShaderTree

open Token (label followOf)

namespace Tree

theorem all_isLeaf_plainAll (ts : List Tree) : (plainAll ts).all isLeaf = ts.all isLeaf := by
  rw [plainAll_eq_map, List.all_map]
  exact congrArg ts.all (funext isLeaf_plain)

theorem placedNodesAll_append (offset : Nat) (ts us : List Tree) :
    placedNodesAll offset (ts ++ us) =
      placedNodesAll offset ts ++ placedNodesAll (offset + sizeAll ts) us := by
  induction ts generalizing offset with
  | nil => rfl
  | cons t ts ih =>
    rw [List.cons_append, placedNodesAll, ih, placedNodesAll, sizeAll, List.append_assoc, Nat.add_assoc]

mutual

theorem stop_of_placedNodes {offset start : Nat} {t u : Tree} (member : (start, u) ∈ placedNodes offset t) :
    start + u.size ≤ offset + t.size := by
  cases t with
  | leaf => cases member
  | node k m cs =>
    rcases List.mem_cons.1 member with is | below
    · obtain ⟨rfl, rfl⟩ := Prod.mk.inj is
      exact Nat.le_refl _
    · exact stop_of_placedNodesAll below

theorem stop_of_placedNodesAll {offset start : Nat} {ts : List Tree} {u : Tree}
    (member : (start, u) ∈ placedNodesAll offset ts) : start + u.size ≤ offset + sizeAll ts := by
  cases ts with
  | nil => cases member
  | cons t ts =>
    rw [placedNodesAll] at member
    rw [sizeAll]
    rcases List.mem_append.1 member with first | others
    · have := stop_of_placedNodes first
      omega
    · have := stop_of_placedNodesAll others
      omega

end

end Tree

/-- A node right below the root, between what is in front of it and what is behind it. -/
structure Document.Item (d : Document) where
  front : List Tree
  node : Tree
  back : List Tree
  split : d.root.children = front ++ node :: back
  isNode : node.isLeaf = false

namespace Document.Item

variable {a b d : Document}

def start (n : d.Item) : Nat := Tree.sizeAll n.front

def stop (n : d.Item) : Nat := n.start + n.node.size

/-- Kind of the first token behind it that is no blank or comment, the end of input if there is none. -/
def follow (n : d.Item) : Kind := followOf (Tree.leavesAll n.back)

/-- Whether only blanks and comments are in front of it. -/
def isFirst (n : d.Item) : Bool := n.front.all Tree.isLeaf

/-- Items in the same place, with the same shapes in front of them, in them and behind them. -/
structure Alike (k : a.Item) (m : b.Item) : Prop where
  front : Tree.plainAll k.front = Tree.plainAll m.front
  node : k.node.plain = m.node.plain
  back : Tree.plainAll k.back = Tree.plainAll m.back

namespace Alike

variable {k : a.Item} {m : b.Item} (alike : k.Alike m)

include alike

theorem start : k.start = m.start := by
  rw [Item.start, ← Tree.sizeAll_plainAll, alike.front, Tree.sizeAll_plainAll, Item.start]

theorem follow : k.follow = m.follow := by
  rw [Item.follow, ← Tree.leavesAll_plainAll, alike.back, Tree.leavesAll_plainAll, Item.follow]

theorem isFirst : k.isFirst = m.isFirst := by
  rw [Item.isFirst, ← Tree.all_isLeaf_plainAll, alike.front, Tree.all_isLeaf_plainAll, Item.isFirst]

end Alike

/-- Documents whose children under the root agree in some respect have items that do. -/
theorem exists_of_map {β : Type} {f : Tree → β} (same : a.root.children.map f = b.root.children.map f)
    (shapes : ∀ t u, f t = f u → t.plain = u.plain) (m : b.Item) :
    ∃ k : a.Item, k.Alike m ∧ f k.node = f m.node := by
  have plain {ts us : List Tree} (same : ts.map f = us.map f) : Tree.plainAll ts = Tree.plainAll us := by
    rw [Tree.plainAll_eq_map, Tree.plainAll_eq_map]
    induction ts generalizing us with
    | nil =>
      obtain rfl := List.map_eq_nil_iff.1 same.symm
      rfl
    | cons t ts ih =>
      obtain ⟨u, us, rfl, first, others⟩ := List.map_eq_cons_iff.1 same.symm
      rw [List.map_cons, List.map_cons, shapes _ _ first, ih others.symm]
  rw [m.split, List.map_append, List.map_cons] at same
  obtain ⟨front, rest, split, front', rest'⟩ := List.map_eq_append_iff.1 same
  obtain ⟨u, back, rfl, node, back'⟩ := List.map_eq_cons_iff.1 rest'
  have shape := shapes _ _ node
  have isNode : u.isLeaf = false := by
    rw [← Tree.isLeaf_plain, shape, Tree.isLeaf_plain]
    exact m.isNode
  exact ⟨⟨front, u, back, split, isNode⟩, ⟨plain front', shape, plain back'⟩, node⟩

theorem exists_alike (same : a.root.plain = b.root.plain) (m : b.Item) : ∃ k : a.Item, k.Alike m := by
  have children := congrArg Tree.children same
  rw [Tree.children_plain, Tree.children_plain] at children
  obtain ⟨k, alike, _⟩ := exists_of_map children (fun _ _ => id) m
  exact ⟨k, alike⟩

/-- An item among the nodes of a tree: only the root and nodes that end sooner come before it. -/
theorem exists_placed (n : d.Item) : ∃ before behind,
    d.root.placedNodes 0 = before ++ (n.start, n.node) :: behind ∧
      (∀ o ∈ before, o.2 = d.root ∨ o.1 + o.2.size ≤ n.start) ∧ n.start ≤ d.root.size := by
  have split := n.split
  cases shape : d.root with
  | leaf k text =>
    rw [shape] at split
    exact absurd split.symm (List.append_ne_nil_of_right_ne_nil _ (List.cons_ne_nil _ _))
  | node k m cs =>
    rw [shape, Tree.children] at split
    obtain ⟨below, own⟩ : ∃ below, Tree.placedNodes n.start n.node = (n.start, n.node) :: below := by
      have isNode := n.isNode
      cases node : n.node with
      | leaf => rw [node] at isNode; cases isNode
      | node => exact ⟨_, rfl⟩
    refine ⟨(0, .node k m cs) :: Tree.placedNodesAll 0 n.front,
      below ++ Tree.placedNodesAll (n.start + n.node.size) n.back, ?_, ?_, ?_⟩
    · rw [Tree.placedNodes, split, Tree.placedNodesAll_append, Tree.placedNodesAll, Nat.zero_add]
      change _ :: (_ ++ (Tree.placedNodes n.start n.node ++ _)) = _
      rw [own]
      rfl
    · refine List.forall_mem_cons.2 ⟨.inl rfl, fun o member => .inr ?_⟩
      have stop := Tree.stop_of_placedNodesAll (u := o.2) member
      rwa [Nat.zero_add] at stop
    · rw [Tree.size, split, Tree.sizeAll_append]
      exact Nat.le_add_right _ _

end Document.Item

namespace Reuse

variable {old : Document} {map : EditMap} {n : old.Item} {gotoKind : Kind → Option Nat} {top next : Nat}
  {behind : List Token.Label}

/-- An old item that fits the tokens ahead can be taken over. -/
theorem check?_item {tokens : List Token} (recorded : n.node.record? = some ⟨top, n.follow⟩)
    (goto : gotoKind n.node.kind = some next) (clear : map.touches n.start n.stop = false)
    (ahead : tokens.map label = n.node.leaves ++ behind) (follow : followOf behind = n.follow) :
    (ofDocument old map).check? gotoKind top tokens (n.start, n.node) =
      some ⟨n.node, n.node.leaves.length, next⟩ := by
  have leaves : leavesMatch n.node.leaves tokens = true := by
    refine decide_eq_true ?_
    change (tokens.take _).map label = _
    rw [List.map_take, ahead, List.take_left]
  have behindIs : followKind (tokens.drop n.node.leaves.length) = n.follow := by
    rw [← Token.followOf_map_label, List.map_drop, ahead, List.drop_left, follow]
  have clear : (ofDocument old map).map.touches n.start (n.start + n.node.size) = false := clear
  simp [check?, recorded, goto, clear, leaves, behindIs]

/-- Where an old item fits the tokens ahead, it is found. -/
theorem find?_item (unrecorded : old.root.record? = none) (sized : n.node.size ≠ 0)
    {t : Token} {rest : List Token} (recorded : n.node.record? = some ⟨top, n.follow⟩)
    (goto : gotoKind n.node.kind = some next) (clear : map.touches n.start n.stop = false)
    (start : map.toOld? t.start = .ok (some n.start))
    (ahead : (t :: rest).map label = n.node.leaves ++ behind) (follow : followOf behind = n.follow) :
    (ofDocument old map).find? gotoKind top (t :: rest) =
      .ok (some ⟨n.node, n.node.leaves.length, next⟩) := by
  have fits := check?_item recorded goto clear ahead follow
  obtain ⟨before, later, nodes, sooner, inside⟩ := n.exists_placed
  have candidates : (ofDocument old map).candidates t.start = .ok
      (((before ++ (n.start, n.node) :: later).filter fun o => o.2.size ≠ 0).filter
        fun o => o.1 = n.start) := by
    unfold Reuse.candidates
    rw [show (ofDocument old map).map.toOld? t.start = .ok (some n.start) from start, ← nodes]
    exact if_neg (Nat.not_lt.2 inside)
  -- the root is no node to take over, and all others in front start sooner
  have none : ∀ o ∈ (before.filter fun o => o.2.size ≠ 0).filter (fun o => o.1 = n.start),
      (ofDocument old map).check? gotoKind top (t :: rest) o = none := by
    rintro ⟨offset, u⟩ member
    simp only [List.mem_filter, decide_eq_true_eq] at member
    obtain ⟨⟨inFront, size⟩, rfl⟩ := member
    rcases sooner _ inFront with is | stop
    · simp [check?, show u = old.root from is, unrecorded]
    · dsimp only at stop
      omega
  simp only [find?, candidates, bind, Except.bind, pure, Except.pure]
  rw [List.filter_append, List.filter_append, List.filter_cons_of_pos (by simpa using sized),
    List.filter_cons_of_pos (by simp), List.findSome?_append, List.findSome?_eq_none_iff.2 none,
    Option.none_or, List.findSome?_cons_of_isSome (by rw [fits]; rfl), fits]

end Reuse

/-- What an item records: the state in front of it, from which the table goes on behind it, and the kind of
the token behind it. -/
structure Document.Item.Recorded {d : Document} (g : Grammar) (t : Table) (list : Nat) (n : d.Item) :
    Prop where
  record : ∃ state next, n.node.record? = some ⟨state, n.follow⟩ ∧
    Setup.Counts g list 0 n.isFirst state ∧
      (t.nonterminalOf? n.node.kind).bind (t.goto? state) = some next
  sized : n.node.size ≠ 0

/-- What makes the items of a language come to light: its texts are lists of nodes, and its table, made
from the grammar, reads the empty text. -/
structure Grammar.Itemizes (g : Grammar) (t : Table) (list item : Nat) : Prop where
  lists : g.Lists list item
  only : g.OnlyStartVanishes
  named : t.Named
  built : t.BuiltFrom g
  acts : t.action 0 .eof ≠ .error

section Runs

open Setup Config

variable {g : Grammar} {p : Parser} {list item : Nat} {text : String} {tokens : List Token}
  {reuse : Option Reuse} {d : Document}

/-- Where the items come from in a parse that reports nothing. -/
theorem Parser.made_of_runOn (itemizes : g.Itemizes p.language.table list item)
    (lexical : ∀ u ∈ tokens, u.kind.IsLexical) (texts : ∀ u ∈ tokens, Token.hasText (label u) = true)
    (sized : ∀ r, reuse = some r → ∀ n ∈ r.nodes, n.2.size ≠ 0)
    (parsed : p.runOn text tokens reuse = .ok d) (quiet : d.diagnostics = []) (n : d.Item) :
    ∃ lower, forest lower = n.front ∧ (p.setup reuse).Made tokens lower n.node ∧
      Counts g list 0 n.isFirst (topState lower) ∧
        Tree.leavesAll n.front ++ (n.node.leaves ++ Tree.leavesAll n.back) = tokens.map label := by
  obtain ⟨lists, only, named, built, acts⟩ := itemizes
  unfold runOn at parsed
  dsimp only at parsed
  cases ran : (p.setup reuse).run ((p.setup reuse).stepBound tokens.length) (.initial tokens) with
  | error f => rw [ran] at parsed; cases parsed
  | ok last =>
    rw [ran] at parsed
    obtain rfl := Except.ok.inj parsed
    obtain ⟨c, reached, accepted | gaveUp⟩ := exists_last .refl ran
    · obtain rfl := settle_of_last (.inl accepted)
      obtain ⟨reading, action⟩ := accept_of_accepted accepted
      have traces := reached.traces (s := p.setup reuse) lists only named built texts sized
        ⟨report_eq_nil.1 quiet, reading⟩
      obtain ⟨lower, shown, made, counts⟩ := traces.listed built action n.front n.node n.back n.split n.isNode
      refine ⟨lower, shown, made, counts, ?_⟩
      have done : c.settle.rest = [] := rest_eq_nil lexical
        ((rest_suffix_settle c).trans (moves_rest_suffix reached.moves)) (built.eof_of_accept action)
      have leaves := leaves_root c.settle
      have children : (root c.settle).leaves = Tree.leavesAll (root c.settle).children := rfl
      rw [children, n.split, Tree.leavesAll_append, Tree.leavesAll] at leaves
      rw [leaves, ← traces.settle.whole, done, List.append_nil]
    · exact absurd gaveUp (step_ne_gaveUp (reached.spelled_of_built built) acts)

theorem Parser.recorded_of_runOn (itemizes : g.Itemizes p.language.table list item)
    (lexical : ∀ u ∈ tokens, u.kind.IsLexical) (texts : ∀ u ∈ tokens, Token.hasText (label u) = true)
    (sized : ∀ r, reuse = some r → ∀ n ∈ r.nodes, n.2.size ≠ 0)
    (parsed : p.runOn text tokens reuse = .ok d) (quiet : d.diagnostics = []) (n : d.Item) :
    n.Recorded g p.language.table list := by
  obtain ⟨lower, shown, made, counts, labels⟩ := made_of_runOn itemizes lexical texts sized parsed quiet n
  obtain ⟨next, goto⟩ := made.goto
  obtain ⟨behind, whole, recorded⟩ := made.recorded
  obtain ⟨_, begins⟩ := made.begins
  have word : word lower = Tree.leavesAll n.front := by
    rw [← shown, forest, leavesAll_flatMap_trees, List.reverse_reverse]
  rw [← labels, word, List.append_cancel_left_eq, List.append_cancel_left_eq] at whole
  refine ⟨⟨topState lower, next, ?_, counts, goto⟩, ?_⟩
  · rw [recorded, whole]
    rfl
  · simpa [Tree.sizeAll] using begins.size

/-- An old item is taken over where the new tree has an item of its shape in front of the same kind of
token, if both are first or both are not. -/
theorem Parser.shares_of_runOn (itemizes : g.Itemizes p.language.table list item)
    (lexical : ∀ u ∈ tokens, u.kind.IsLexical) (texts : ∀ u ∈ tokens, Token.hasText (label u) = true)
    {stop : Nat} (abreast : Token.Abreast stop 0 tokens) {old : Document} {map : EditMap}
    (parsed : p.runOn text tokens (some (.ofDocument old map)) = .ok d) (quiet : d.diagnostics = [])
    (unrecorded : old.root.record? = none) {n : old.Item} (recorded : n.Recorded g p.language.table list)
    {k : d.Item} (same : k.node.plain = n.node.plain) (clear : map.touches n.start n.stop = false)
    (start : map.toOld? k.start = .ok (some n.start)) (follow : k.follow = n.follow)
    (first : k.isFirst = n.isFirst) : k.node = n.node := by
  have sized : ∀ r, some (Reuse.ofDocument old map) = some r → ∀ n ∈ r.nodes, n.2.size ≠ 0 := by
    rintro r ⟨⟩ o member
    exact of_decide_eq_true (List.mem_filter.1 member).2
  obtain ⟨lower, shown, made, counts, labels⟩ := made_of_runOn itemizes lexical texts sized parsed quiet k
  obtain ⟨c, begins⟩ := made.begins
  obtain ⟨⟨state, next, record, counts', goto⟩, size⟩ := recorded
  have placed := (moves_placed (placed_initial abreast) begins.reached.moves).settle.flush.1
  have ahead : c.settle.rest.map label = n.node.leaves ++ Tree.leavesAll k.back := by
    have word : word lower = Tree.leavesAll k.front := by
      rw [← shown, forest, leavesAll_flatMap_trees, List.reverse_reverse]
    have rest := begins.rest
    rwa [word, ← labels, List.append_cancel_left_eq, ← Tree.leaves_plain, same, Tree.leaves_plain] at rest
  have top : c.top = state := by
    have below : topState c.settle.flush.stack = c.top := top_flush c.settle
    rw [← below, begins.stack]
    exact counts.unique (first ▸ counts')
  cases rest : c.settle.rest with
  | nil =>
    rw [rest] at ahead
    have none : n.node.leaves = [] := (List.append_eq_nil_iff.1 ahead.symm).1
    rw [Tree.size_eq, none] at size
    exact absurd rfl size
  | cons u later =>
    have startIs : u.start = k.start := by
      have tokens := placed.tokens
      have cursor := placed.cursor
      rw [rest_flush, rest] at tokens
      rw [begins.stack, extent, shown] at cursor
      exact tokens.1.trans cursor
    have finds : (Reuse.ofDocument old map).find?
        ((p.setup (some (.ofDocument old map))).gotoKind c.top) c.top (u :: later) = .ok (some _) :=
      Reuse.find?_item unrecorded size (top ▸ record) (top ▸ goto) clear (startIs ▸ start)
        (rest ▸ ahead) follow
    rw [← rest] at finds
    have taken := begins.takes _ _ rfl finds
    rw [Tree.nodesAll, Tree.nodesAll, List.append_nil] at taken
    exact (Tree.eq_of_mem_nodes taken same.symm).symm

end Runs

end ShaderTree
