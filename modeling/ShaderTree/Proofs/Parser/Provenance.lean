import ShaderTree.Proofs.Parser.Conformance
import ShaderTree.Proofs.Parser.Placed
import ShaderTree.Proofs.Table.Columns
import ShaderTree.Proofs.Tree.Ranges
import ShaderTree.Proofs.Tree.Shape

/-! Where the elements of a tree come from. A leaf is a token, and a node stands for a repair, for the whole
text, or for a reduction of the table; only the last keep records, of the state on which the reduction put
the nonterminal, and only for some text. -/
namespace ShaderTree

/-- A node of a kind, with a record or not and of a size, can be made. -/
inductive Table.Makes (t : Table) : Kind → Option Record → Nat → Prop
  | repair {k : Kind} {size : Nat} (reserved : k = .error ∨ k = .missing ∨ k = .sourceFile) :
    Makes t k none size
  | reduction {p size : Nat} {r : Reduction} {k : Kind} {record : Option Record}
    (known : t.reductions[p]? = some r) (node : r.node? = some k)
    (recorded : ∀ x, record = some x → size ≠ 0 ∧ ∃ next, t.goto? x.state r.lhs = some next) :
    Makes t k record size

namespace Tree

mutual

theorem leaves_of_mem_nodes {t u : Tree} (inside : u ∈ t.nodes) : u.leaves ⊆ t.leaves := by
  cases t with
  | leaf => cases inside
  | node k m cs =>
    rcases List.mem_cons.1 inside with rfl | below
    · exact List.Subset.refl _
    · exact leaves_of_mem_nodesAll below

theorem leaves_of_mem_nodesAll {ts : List Tree} {u : Tree} (inside : u ∈ nodesAll ts) :
    u.leaves ⊆ leavesAll ts := by
  cases ts with
  | nil => cases inside
  | cons t ts =>
    rw [leavesAll]
    rcases List.mem_append.1 inside with first | others
    · exact List.subset_append_of_subset_left _ (leaves_of_mem_nodes first)
    · exact List.subset_append_of_subset_right _ (leaves_of_mem_nodesAll others)

end

mutual

theorem mem_nodes_of_placedNodes {offset start : Nat} {t u : Tree}
    (member : (start, u) ∈ placedNodes offset t) : u ∈ t.nodes := by
  cases t with
  | leaf => cases member
  | node k m cs =>
    rcases List.mem_cons.1 member with is | below
    · obtain rfl := (Prod.mk.inj is).2
      exact .head _
    · exact .tail _ (mem_nodes_of_placedNodesAll below)

theorem mem_nodes_of_placedNodesAll {offset start : Nat} {ts : List Tree} {u : Tree}
    (member : (start, u) ∈ placedNodesAll offset ts) : u ∈ nodesAll ts := by
  cases ts with
  | nil => cases member
  | cons t ts =>
    rcases List.mem_append.1 member with first | others
    · exact List.mem_append_left _ (mem_nodes_of_placedNodes first)
    · exact List.mem_append_right _ (mem_nodes_of_placedNodesAll others)

end

variable {t : Table}

/-- Every element of a tree comes from the parser. -/
structure Grown (t : Table) (u : Tree) : Prop where
  leaves : ∀ l ∈ u.leaves, l.1.isTerminal = true
  nodes : ∀ v ∈ u.nodes, t.Makes v.kind v.record? v.size

structure GrownIn (t : Table) (us : List Tree) : Prop where
  leaves : ∀ l ∈ leavesAll us, l.1.isTerminal = true
  nodes : ∀ v ∈ nodesAll us, t.Makes v.kind v.record? v.size

@[simp] theorem grownIn_nil : GrownIn t [] := ⟨by simp [leavesAll], by simp [nodesAll]⟩

theorem grownIn_append {us vs : List Tree} : GrownIn t (us ++ vs) ↔ GrownIn t us ∧ GrownIn t vs := by
  constructor
  · rintro ⟨leaves, nodes⟩
    simp only [leavesAll_append, nodesAll_append, List.mem_append, or_imp, forall_and] at leaves nodes
    exact ⟨⟨leaves.1, nodes.1⟩, leaves.2, nodes.2⟩
  · rintro ⟨first, second⟩
    constructor
    · simpa only [leavesAll_append, List.mem_append, or_imp, forall_and] using
        ⟨first.leaves, second.leaves⟩
    · simpa only [nodesAll_append, List.mem_append, or_imp, forall_and] using
        ⟨first.nodes, second.nodes⟩

theorem grownIn_singleton {u : Tree} : GrownIn t [u] ↔ u.Grown t := by
  constructor
  · exact fun ⟨leaves, nodes⟩ => ⟨by simpa [leavesAll] using leaves, by simpa [nodesAll] using nodes⟩
  · exact fun ⟨leaves, nodes⟩ => ⟨by simpa [leavesAll] using leaves, by simpa [nodesAll] using nodes⟩

theorem grownIn_cons {u : Tree} {us : List Tree} : GrownIn t (u :: us) ↔ u.Grown t ∧ GrownIn t us := by
  rw [← List.singleton_append, grownIn_append, grownIn_singleton]

theorem grown_leaf {k : Kind} {text : String} (terminal : k.isTerminal = true) :
    (leaf k text).Grown t :=
  ⟨by simpa [leaves] using terminal, by simp [nodes]⟩

theorem grown_node {k : Kind} {m : Mark} {cs : List Tree} :
    (node k m cs).Grown t ↔ t.Makes k m.record (sizeAll cs) ∧ GrownIn t cs := by
  constructor
  · exact fun ⟨leaves, nodes⟩ => ⟨nodes _ (.head _), leaves, fun v below => nodes v (.tail _ below)⟩
  · rintro ⟨own, leaves, nodes⟩
    exact ⟨leaves, List.forall_mem_cons.2 ⟨own, nodes⟩⟩

theorem Grown.of_mem_nodes {u v : Tree} (grown : u.Grown t) (inside : v ∈ u.nodes) : v.Grown t :=
  ⟨fun l member => grown.leaves l (leaves_of_mem_nodes inside member),
    fun w member => grown.nodes w ((sublist_of_mem_nodes inside).subset member)⟩

theorem grown_repair {k : Kind} {cs : List Tree}
    (reserved : k = .error ∨ k = .missing ∨ k = .sourceFile) (below : GrownIn t cs) :
    (node k {} cs).Grown t :=
  grown_node.2 ⟨.repair reserved, below⟩

mutual

theorem Grown.numberFrom (next : Nat) {u : Tree} (grown : u.Grown t) : (numberFrom next u).1.Grown t := by
  cases u with
  | leaf => exact grown
  | node k m cs =>
    obtain ⟨own, below⟩ := grown_node.1 grown
    rw [Tree.numberFrom]
    split
    · exact grown_node.2 ⟨own, below⟩
    · refine grown_node.2 ⟨?_, below.numberAllFrom (next + 1)⟩
      rwa [sizeAll_numberAllFrom]

theorem GrownIn.numberAllFrom (next : Nat) {us : List Tree} (grown : GrownIn t us) :
    GrownIn t (numberAllFrom next us).1 := by
  cases us with
  | nil => exact grown
  | cons u us =>
    obtain ⟨first, others⟩ := grownIn_cons.1 grown
    rw [Tree.numberAllFrom]
    exact grownIn_cons.2 ⟨first.numberFrom next, others.numberAllFrom _⟩

end

end Tree

open ShaderTree.Tree (Grown GrownIn grownIn_cons grownIn_append grownIn_singleton)

theorem Kind.isTerminal_of_isTrivia {k : Kind} (trivia : k.isTrivia = true) : k.isTerminal = true := by
  cases k <;> first | rfl | cases trivia

def Reuse.Grown (r : Reuse) (t : Table) : Prop := ∀ n ∈ r.nodes, n.2.Grown t

theorem Reuse.grown_ofDocument {t : Table} {old : Document} {map : EditMap} (grown : old.root.Grown t) :
    (ofDocument old map).Grown t := by
  intro n member
  exact grown.of_mem_nodes (Tree.mem_nodes_of_placedNodes (List.mem_filter.1 member).1)

namespace Config

variable {t : Table} {c c' : Config}

/-- Everything on the stack comes from the parser, and only tokens are set aside. -/
structure Grown (t : Table) (c : Config) : Prop where
  stack : ∀ e ∈ c.stack, GrownIn t e.children
  pending : ∀ u ∈ c.pending, u.kind.isTerminal = true

theorem grown_initial (tokens : List Token) : (initial tokens).Grown t :=
  ⟨by simp [initial], by simp [initial]⟩

theorem grownIn_leaf {u : Token} (terminal : u.kind.isTerminal = true) : GrownIn t [leaf u] :=
  grownIn_singleton.2 (Tree.grown_leaf terminal)

theorem grownIn_leaves {us : List Token} (terminal : ∀ u ∈ us, u.kind.isTerminal = true) :
    GrownIn t (us.map leaf) := by
  induction us with
  | nil => exact Tree.grownIn_nil
  | cons u us ih =>
    obtain ⟨first, others⟩ := List.forall_mem_cons.1 terminal
    exact grownIn_cons.2 ⟨Tree.grown_leaf first, ih others⟩

theorem Grown.settle (grown : c.Grown t) : c.settle.Grown t := by
  refine ⟨grown.stack, fun u member => ?_⟩
  rcases List.mem_append.1 member with old | new
  · exact grown.pending u old
  · have trivia : u.kind.isTrivia = true := by simpa using List.mem_takeWhile_imp new
    exact Kind.isTerminal_of_isTrivia trivia

/-- An entry goes on top of the stack. -/
theorem Grown.push (grown : c.Grown t) {e : Entry} (stack : c'.stack = e :: c.stack)
    (pending : c'.pending = c.pending) (own : GrownIn t e.children) : c'.Grown t :=
  ⟨stack ▸ List.forall_mem_cons.2 ⟨own, grown.stack⟩, pending ▸ grown.pending⟩

theorem Grown.flush (grown : c.Grown t) : c.flush.Grown t := by
  rw [flush_eq]
  refine ⟨fun e member => ?_, fun _ member => absurd member List.not_mem_nil⟩
  rcases List.mem_append.1 member with blank | old
  · obtain ⟨u, aside, rfl⟩ := List.mem_map.1 (List.mem_reverse.1 blank)
    exact grownIn_leaf (grown.pending u aside)
  · exact grown.stack e old

end Config

namespace Setup

open Config

variable {g : Grammar} {s : Setup} {c c' : Config}

theorem grownIn_trees {t : Table} {es : List Entry} (each : ∀ e ∈ es, GrownIn t e.children) :
    GrownIn t (es.flatMap Entry.trees) := by
  induction es with
  | nil => exact Tree.grownIn_nil
  | cons e es ih =>
    obtain ⟨first, others⟩ := List.forall_mem_cons.1 each
    refine grownIn_append.2 ⟨?_, ih others⟩
    unfold Entry.trees
    split
    · exact grownIn_singleton.2 (Tree.grown_repair (.inl rfl) first)
    · exact first

theorem grownIn_made {t : Table} {p next : Nat} {r : Reduction} {popped : List Entry} {state : Nat}
    (known : t.reductions[p]? = some r) (goto : t.goto? state r.lhs = some next) (k : Kind)
    (below : GrownIn t (popped.flatMap Entry.trees)) : GrownIn t (made r popped state k) := by
  unfold made
  split
  · exact below
  · rename_i kind node
    refine grownIn_singleton.2 (Tree.grown_node.2 ⟨.reduction known node ?_, below⟩)
    intro x recorded
    split at recorded
    · cases recorded
    · rename_i whole
      obtain rfl := Option.some.inj recorded
      exact ⟨by simp at whole; exact whole.2, next, goto⟩

theorem grown_reduce (grown : c.Grown s.table) {p : Nat} {k : Kind} (h : s.reduce c p k = .ok c') :
    c'.Grown s.table := by
  obtain ⟨r, trailing, popped, below, next, known, trailingIs, split, goto, rfl⟩ := reduce_ok h
  have whole := stack_of_reduce trailingIs split
  have inside (e : Entry) (member : e ∈ trailing ∨ e ∈ popped ∨ e ∈ below) :
      GrownIn s.table e.children := grown.stack e (by rw [whole]; simpa using member)
  refine ⟨fun e member => ?_, grown.pending⟩
  rcases List.mem_append.1 member with moved | member
  · obtain ⟨old, there, rfl⟩ := List.mem_map.1 moved
    exact inside old (.inl there)
  · rcases List.mem_cons.1 member with rfl | old
    · exact grownIn_made known goto k (grownIn_trees fun e member => inside e (.inr (.inl member)))
    · exact inside e (.inr (.inr old))

theorem grown_skip {t : Table} (grown : c.Grown t) (terminal : c.lookahead.isTerminal = true)
    (h : s.skip c = .ok c') : c'.Grown t := by
  obtain ⟨u, rest, front, rfl⟩ := skip_ok h
  rw [lookahead, front] at terminal
  unfold pushSkipped
  split
  · rename_i state damaged offset children below _ stack
    obtain ⟨top, others⟩ := List.forall_mem_cons.1 (stack ▸ grown.stack)
    refine ⟨List.forall_mem_cons.2 ⟨?_, others⟩, fun _ member => absurd member List.not_mem_nil⟩
    exact grownIn_append.2 ⟨grownIn_append.2 ⟨top, grownIn_leaves grown.pending⟩, grownIn_leaf terminal⟩
  · exact grown.flush.push rfl rfl (grownIn_leaf terminal)

theorem grown_wrap {t : Table} (grown : c.Grown t) (depth : Nat) (k : Kind) :
    (Setup.wrap c depth k).Grown t := by
  have below := grownIn_trees fun e member => grown.stack e (mem_of_pop (n := depth) (.inl member))
  exact ⟨List.forall_mem_cons.2 ⟨grownIn_singleton.2 (Tree.grown_repair (.inl rfl) below),
    fun e member => grown.stack e (mem_of_pop (.inr member))⟩, grown.pending⟩

theorem Move.grown (built : s.table.BuiltFrom g) (old : ∀ r, s.reuse = some r → r.Grown s.table)
    (grown : c.Grown s.table) (move : Move s c c') : c'.Grown s.table := by
  have settled := grown.settle
  cases move with
  | insertReduce _ _ reduced => exact grown_reduce grown reduced
  | insertShift _ action =>
    have terminal := (Table.exists_of_action built (ne_of_eq_of_ne action nofun)).2
    refine grown.push rfl rfl (grownIn_singleton.2 (Tree.grown_repair (.inr (.inl rfl)) ?_))
    exact grownIn_singleton.2 (Tree.grown_leaf terminal)
  | insertStop => exact ⟨grown.stack, grown.pending⟩
  | reduce _ _ _ reduced => exact grown_reduce settled reduced
  | shift _ terminal _ shifted =>
    obtain ⟨u, rest, front, rfl⟩ := shift_ok shifted
    rw [lookahead, front] at terminal
    exact settled.flush.push rfl rfl (grownIn_leaf terminal)
  | takeOver _ _ _ reuse finds =>
    obtain ⟨record, fits⟩ := Reuse.find?_some finds
    obtain ⟨start, known⟩ := fits.known
    exact settled.flush.push rfl rfl (grownIn_singleton.2 (old _ reuse _ known))
  | insert => exact ⟨settled.stack, settled.pending⟩
  | wrap => exact grown_wrap settled _ _
  | skip _ terminal _ _ _ skipped => exact grown_skip settled terminal skipped

theorem grown_of_run (built : s.table.BuiltFrom g) (old : ∀ r, s.reuse = some r → r.Grown s.table)
    {tokens : List Token} {fuel : Nat} (h : s.run fuel (.initial tokens) = .ok c) :
    (Setup.root c).Grown s.table := by
  obtain ⟨last, moves, final⟩ := run_cases h
  have grown : last.Grown s.table := by
    clear final
    induction moves with
    | refl => exact grown_initial tokens
    | tail _ move ih => exact move.grown built old ih
  have settled : c.Grown s.table := by cases final <;> exact grown.settle
  exact Tree.grown_repair (.inr (.inr rfl)) (grownIn_trees fun e member =>
    settled.flush.stack e (List.mem_reverse.1 member))

end Setup

variable {g : Grammar} {t : Table} {text : String} {d : Document}

theorem Parser.grown_of_runOn {p : Parser} (built : Table.build g = .ok p.language.table)
    {reuse : Option Reuse} (old : ∀ r, reuse = some r → r.Grown p.language.table) {tokens : List Token}
    (h : p.runOn text tokens reuse = .ok d) : d.root.Grown p.language.table := by
  unfold runOn at h
  dsimp only at h
  cases ran : (p.setup reuse).run ((p.setup reuse).stepBound tokens.length) (.initial tokens) with
  | error f => rw [ran] at h; cases h
  | ok c =>
    rw [ran] at h
    obtain rfl := Except.ok.inj h
    exact Setup.grown_of_run (s := p.setup reuse) (Table.build_ok built) old ran

/-- Every element of every tree comes from the parser. -/
theorem Parsed.grown (built : Table.build g = .ok t)
    (h : Parsed (fun l => Table.build g = .ok l.table) text d) : d.root.Grown t := by
  have same {l : Language} (known : Table.build g = .ok l.table) : l.table = t :=
    Except.ok.inj (known.symm.trans built)
  induction h with
  | parse known parsed =>
    obtain rfl := same known
    exact Parser.grown_of_runOn known (by simp) parsed
  | @reparse p text newText old d changes edits known _ _ parsed ih =>
    obtain rfl := same known
    rcases Parser.runOn_of_reparse parsed with parsed | ⟨map, tokens, _, _, _, _, parsed⟩
    · exact Parser.grown_of_runOn known (by simp) parsed
    · refine Parser.grown_of_runOn known ?_ parsed
      rintro r ⟨⟩
      exact Reuse.grown_ofDocument ih
  | number next _ ih => exact ih.numberFrom next

end ShaderTree
