import ShaderTree.Ast.Parts
import ShaderTree.Proofs.Parser.Operands
import ShaderTree.Proofs.Parser.Provenance

/-! The parts of a node and the production that they belong to. In a node without repairs the children that
are no blanks fall into one group for each symbol of a production: a token for a terminal, a node for a
visible nonterminal, and for a hidden one the groups of a production of its own, put together. -/
namespace ShaderTree

namespace Site

/-- The children that are neither blanks nor comments. -/
def parts (s : Site) : List Site := s.children.filter fun c => !(c.isLeaf && c.kind.isTrivia)

variable {s c : Site}

theorem map_tree_placeChildren (parent : Site) (index start : Nat) (ts : List Tree) :
    (placeChildren parent index start ts).map tree = ts := by
  induction ts generalizing index start with
  | nil => rfl
  | cons t ts ih => rw [placeChildren, List.map_cons, ih]

@[simp] theorem map_tree_children (s : Site) : s.children.map tree = s.tree.children :=
  map_tree_placeChildren ..

mutual

/-- The nodes of a site are those of its tree. -/
theorem map_tree_nodesAt (above : List Frame) (start : Nat) (t : Tree) :
    ((elementsAt above start t).filter isNode).map tree = t.nodes := by
  cases t with
  | leaf => rfl
  | node k m cs =>
    have below := map_tree_nodesBelow (.node k m cs) start above 0 start cs
    rw [elementsAt, List.filter_cons_of_pos rfl, List.map_cons, below, Tree.nodes]

theorem map_tree_nodesBelow (parent : Tree) (parentStart : Nat) (above : List Frame)
    (index start : Nat) (ts : List Tree) :
    ((elementsBelow parent parentStart above index start ts).filter isNode).map tree =
      Tree.nodesAll ts := by
  cases ts with
  | nil => rfl
  | cons t ts =>
    have first := map_tree_nodesAt (⟨parent, parentStart, index⟩ :: above) start t
    have others := map_tree_nodesBelow parent parentStart above (index + 1) (start + t.size) ts
    rw [elementsBelow, List.filter_append, List.map_append, first, others, Tree.nodesAll]

end

theorem map_tree_descendants (s : Site) : s.descendants.map tree = s.tree.nodes :=
  map_tree_nodesAt ..

theorem elementsBelow_eq (parent : Site) (index start : Nat) (ts : List Tree) :
    elementsBelow parent.tree parent.start parent.above index start ts =
      (placeChildren parent index start ts).flatMap elements := by
  induction ts generalizing index start with
  | nil => rfl
  | cons t ts ih => rw [elementsBelow, ih, placeChildren, List.flatMap_cons]; rfl

/-- The nodes of a node are it and those of the nodes below it. -/
theorem descendants_eq (node : s.isNode = true) : s.descendants = s :: s.childNodes.flatMap descendants := by
  have nodes (cs : List Site) :
      (cs.flatMap elements).filter isNode = (cs.filter isNode).flatMap descendants := by
    induction cs with
    | nil => rfl
    | cons c cs ih =>
      rw [List.flatMap_cons, List.filter_append, ih, List.filter_cons]
      cases kind : c.isNode with
      | true => rfl
      | false =>
        obtain ⟨t, start, above⟩ := c
        cases t with
        | leaf => rfl
        | node => cases kind
  obtain ⟨t, start, above⟩ := s
  cases t with
  | leaf => cases node
  | node k m cs =>
    rw [descendants, elements, elementsAt, List.filter_cons_of_pos node, childNodes, ← nodes]
    exact congrArg (fun below => _ :: List.filter isNode below)
      (elementsBelow_eq ⟨.node k m cs, start, above⟩ ..)

/-- Recovery touched a node if one of its nodes tells of a repair. -/
theorem hasErrors_eq_false : Ast.hasErrors s = false ↔ s.tree.Faultless := by
  rw [Ast.hasErrors, List.any_eq_false, Tree.Faultless, Tree.kinds, ← map_tree_descendants, List.map_map]
  simp [kind]

theorem heightOf_le_heightOfAll {ts : List Tree} {t : Tree} (inside : t ∈ ts) :
    heightOf t ≤ heightOfAll ts := by
  induction ts with
  | nil => cases inside
  | cons u us ih =>
    rw [heightOfAll]
    rcases List.mem_cons.1 inside with rfl | later
    · exact Nat.le_max_left _ _
    · exact Nat.le_trans (ih later) (Nat.le_max_right _ _)

/-- Children are less high. -/
theorem heightOf_lt (inside : c ∈ s.children) : heightOf c.tree < heightOf s.tree := by
  have below : c.tree ∈ s.tree.children := map_tree_children s ▸ List.mem_map_of_mem inside
  cases shape : s.tree with
  | leaf => simp [shape, Tree.children] at below
  | node k m cs =>
    rw [shape] at below
    rw [heightOf]
    exact Nat.lt_succ_of_le (heightOf_le_heightOfAll below)

/-! What is asked of the children is asked of the parts, as long as it is not about blanks. -/

theorem childNodes_eq (s : Site) : s.childNodes = s.parts.filter isNode := by
  rw [childNodes, parts, List.filter_filter]
  refine List.filter_congr fun c _ => ?_
  cases leaf : c.isLeaf <;> simp [isNode, leaf]

theorem filter_childLeaves {test : Site → Bool} (text : ∀ c, c.kind.isTrivia = true → test c = false) :
    s.childLeaves.filter test = s.parts.filter fun c => c.isLeaf && test c := by
  rw [childLeaves, parts, List.filter_filter, List.filter_filter]
  refine List.filter_congr fun c _ => ?_
  cases leaf : c.isLeaf with
  | false => simp
  | true =>
    cases blank : c.kind.isTrivia with
    | false => simp
    | true => simp [text c blank]

theorem find?_childLeaves {test : Site → Bool} (text : ∀ c, c.kind.isTrivia = true → test c = false) :
    s.childLeaves.find? test = s.parts.find? fun c => c.isLeaf && test c := by
  rw [← List.head?_filter, filter_childLeaves text, List.head?_filter]

theorem findSome?_childLeaves {α : Type} {meaning : Kind → Option α}
    (text : ∀ k, k.isTrivia = true → meaning k = none) :
    s.childLeaves.findSome? (fun c => meaning c.kind) =
      (s.parts.filter (·.isLeaf)).findSome? fun c => meaning c.kind := by
  rw [childLeaves, parts, List.filter_filter]
  induction s.children with
  | nil => rfl
  | cons c cs ih =>
    rw [List.filter_cons, List.filter_cons]
    cases leaf : c.isLeaf with
    | false => simpa using ih
    | true =>
      cases blank : c.kind.isTrivia with
      | false =>
        have kept : (true && !(true && false)) = true := rfl
        rw [if_pos rfl, if_pos kept, List.findSome?_cons, List.findSome?_cons, ih]
      | true => simpa [List.findSome?_cons, text _ blank] using ih

end Site

namespace Ast

variable {s : Site}

theorem token?_eq {k : Kind} (text : k.isTrivia = false) :
    token? s k = s.parts.find? fun c => c.isLeaf && c.kind = k := by
  refine Site.find?_childLeaves fun c blank => decide_eq_false ?_
  rintro rfl
  rw [text] at blank
  cases blank

theorem firstToken?_eq (s : Site) : firstToken? s = s.parts.find? (·.isLeaf) := by
  rw [firstToken?, Site.find?_childLeaves fun c blank => by rw [blank]; rfl, Site.parts, List.find?_filter,
    List.find?_filter]
  refine congrArg (fun test => List.find? test s.children) (funext fun c => ?_)
  cases c.isLeaf <;> cases c.kind.isTrivia <;> rfl

theorem childrenIn_eq (s : Site) (p : Kind → Bool) :
    childrenIn s p = s.parts.filter fun c => c.isNode && p c.kind := by
  rw [childrenIn, Site.childNodes_eq, List.filter_filter]
  exact List.filter_congr fun c _ => Bool.and_comm _ _

end Ast

namespace Tree

variable {g : Grammar} {u c : Tree} {us : List Tree}

/-- A tree of tokens and of nodes that show what the grammar allows, without repairs. -/
structure Whole (g : Grammar) (u : Tree) : Prop where
  conforms : u.AllConform g
  faultless : u.Faultless
  leaves : ∀ l ∈ u.leaves, l.1.isTerminal = true
  nodes : ∀ v ∈ u.nodes, v.kind.isTerminal = false

theorem leaves_of_mem (inside : c ∈ us) : c.leaves ⊆ leavesAll us := by
  induction us with
  | nil => cases inside
  | cons u us ih =>
    rw [leavesAll]
    rcases List.mem_cons.1 inside with rfl | later
    · exact List.subset_append_left _ _
    · exact List.subset_append_of_subset_right _ (ih later)

theorem nodes_of_mem (inside : c ∈ us) : c.nodes ⊆ nodesAll us := by
  induction us with
  | nil => cases inside
  | cons u us ih =>
    rw [nodesAll]
    rcases List.mem_cons.1 inside with rfl | later
    · exact List.subset_append_left _ _
    · exact List.subset_append_of_subset_right _ (ih later)

theorem Whole.of_mem_children (whole : u.Whole g) (inside : c ∈ u.children) : c.Whole g := by
  cases u with
  | leaf => cases inside
  | node k m cs =>
    have leaves : c.leaves ⊆ (node k m cs).leaves := leaves_of_mem inside
    have nodes : c.nodes ⊆ (node k m cs).nodes := fun v below => .tail _ (nodes_of_mem inside below)
    exact {
      conforms := fun v below => whole.conforms v (nodes below)
      faultless := by
        intro k member
        obtain ⟨v, below, rfl⟩ := List.mem_map.1 member
        exact whole.faultless _ (List.mem_map_of_mem (nodes below))
      leaves := fun l below => whole.leaves l (leaves below)
      nodes := fun v below => whole.nodes v (nodes below) }

/-- In a whole tree the tokens are told from the nodes by their kinds. -/
theorem Whole.isLeaf_eq (whole : u.Whole g) : u.isLeaf = u.kind.isTerminal := by
  cases u with
  | leaf k text => exact (whole.leaves (k, text) (List.mem_singleton_self _)).symm
  | node k m cs => exact (whole.nodes _ (.head _)).symm

/-- Of a whole tree there is what it is and no repair. -/
theorem Whole.outline_eq (whole : u.Whole g) :
    u.outline = if u.isLeaf && u.kind.isTrivia then [] else [u.kind] := by
  cases u with
  | leaf k text => rw [outline]; rfl
  | node k m cs =>
    have sound : k.isError = false := whole.faultless k (List.mem_map_of_mem (.head _))
    rw [outline_node (by rintro rfl; cases sound) (by rintro rfl; cases sound)]
    rfl

end Tree

theorem Site.map_kind_parts {g : Grammar} {s : Site} (whole : s.tree.Whole g) :
    s.parts.map kind = Tree.outlines s.tree.children := by
  have each : ∀ c ∈ s.children, c.tree.Whole g := fun c member =>
    whole.of_mem_children (map_tree_children s ▸ List.mem_map_of_mem member)
  rw [parts, ← map_tree_children]
  generalize s.children = cs at each
  induction cs with
  | nil => rfl
  | cons c cs ih =>
    obtain ⟨own, others⟩ := List.forall_mem_cons.1 each
    rw [List.map_cons, Tree.outlines_cons, own.outline_eq, ← ih others, List.filter_cons]
    cases leaf : c.isLeaf <;> cases blank : c.kind.isTrivia <;> simp_all [isLeaf, kind]

theorem Site.whole_of_mem_parts {g : Grammar} {s c : Site} (whole : s.tree.Whole g)
    (inside : c ∈ s.parts) : c.tree.Whole g :=
  whole.of_mem_children (map_tree_children s ▸ List.mem_map_of_mem (List.mem_filter.1 inside).1)

namespace Grammar

variable {g : Grammar} {x : Symbol} {xs : List Symbol} {group : List Site} {groups : List (List Site)}

/-- The sites stand for the symbols, one group for each. -/
inductive Divides (g : Grammar) : List Symbol → List (List Site) → Prop
  | nil : Divides g [] []
  | terminal {c : Site} {k : Kind} {xs : List Symbol} {groups : List (List Site)}
      (leaf : c.isLeaf = true) (kind : c.kind = k) (rest : Divides g xs groups) :
      Divides g (.terminal k :: xs) ([c] :: groups)
  | visible {c : Site} {i : Nat} {xs : List Symbol} {groups : List (List Site)}
      (node : c.isLeaf = false) (kind : g.node? i = some c.kind) (rest : Divides g xs groups) :
      Divides g (.nonterminal i :: xs) ([c] :: groups)
  | hidden {p : Production} {xs : List Symbol} {inner groups : List (List Site)}
      (node : g.node? p.lhs = none) (production : p ∈ g.productions) (own : Divides g p.rhs inner)
      (rest : Divides g xs groups) : Divides g (.nonterminal p.lhs :: xs) (inner.flatten :: groups)

/-- What symbols expand to can be divided among them. -/
theorem Expands.exists_divides (terminals : g.HasTerminals)
    (nodes : ∀ i k, g.node? i = some k → k.isTerminal = false) {ks : List Kind}
    (expands : g.Expands xs ks) (own : ∀ k, .terminal k ∈ xs → k.isTerminal = true)
    {parts : List Site} (leaves : ∀ c ∈ parts, c.isLeaf = c.kind.isTerminal)
    (kinds : parts.map Site.kind = ks) : ∃ groups, g.Divides xs groups ∧ parts = groups.flatten := by
  induction expands generalizing parts with
  | nil => exact ⟨[], .nil, by simpa using kinds⟩
  | @terminal k xs ks _ ih =>
    obtain ⟨c, rest, rfl, rfl, others⟩ := List.map_eq_cons_iff.1 kinds
    obtain ⟨leaf, leaves⟩ := List.forall_mem_cons.1 leaves
    obtain ⟨groups, divides, rfl⟩ := ih (fun k member => own k (.tail _ member)) leaves others
    exact ⟨[c] :: groups, .terminal (leaf.trans (own _ (.head _))) rfl divides, rfl⟩
  | @visible i n k xs ks known node _ ih =>
    obtain ⟨c, rest, rfl, rfl, others⟩ := List.map_eq_cons_iff.1 kinds
    obtain ⟨leaf, leaves⟩ := List.forall_mem_cons.1 leaves
    obtain ⟨groups, divides, rfl⟩ := ih (fun k member => own k (.tail _ member)) leaves others
    have is : g.node? i = some c.kind := by rw [node?, known, Option.bind_some, node]
    exact ⟨[c] :: groups, .visible (leaf.trans (nodes i _ is)) is divides, rfl⟩
  | @hidden i n p xs ks ls known node production lhs _ _ ihOwn ihRest =>
    subst lhs
    obtain ⟨front, back, rfl, front_kinds, back_kinds⟩ := List.map_eq_append_iff.1 kinds
    obtain ⟨front_leaves, back_leaves⟩ := List.forall_mem_append.1 leaves
    obtain ⟨inner, divides, rfl⟩ := ihOwn (terminals p (Array.mem_toList_iff.2 production)) front_leaves
      front_kinds
    obtain ⟨groups, divides', rfl⟩ := ihRest (fun k member => own k (.tail _ member)) back_leaves back_kinds
    have is : g.node? p.lhs = none := by rw [node?, known, Option.bind_some, node]
    exact ⟨inner.flatten :: groups, .hidden is production divides divides', rfl⟩

/-- The parts of a node without repairs are those of one of its productions. -/
theorem exists_divides (terminals : g.HasTerminals)
    (nodes : ∀ i k, g.node? i = some k → k.isTerminal = false) {s : Site} (whole : s.tree.Whole g)
    (node : s.isNode = true) {i : Nat} (is : g.node? i = some s.kind) :
    ∃ p ∈ g.productions, p.lhs = i ∧ ∃ groups, g.Divides p.rhs groups ∧ s.parts = groups.flatten := by
  obtain ⟨n, known, named⟩ := Option.bind_eq_some_iff.1 is
  have inside : s.tree ∈ s.tree.nodes := by
    cases shape : s.tree with
    | leaf => simp [Site.isNode, Site.isLeaf, shape, Tree.isLeaf] at node
    | node => exact .head _
  obtain ⟨p, production, lhs, expands⟩ := whole.conforms _ inside i n known named
  exact ⟨p, production, lhs, expands.exists_divides terminals nodes
    (terminals p (Array.mem_toList_iff.2 production))
    (fun c member => (Site.whole_of_mem_parts whole member).isLeaf_eq) (Site.map_kind_parts whole)⟩

/-- The group of one symbol. -/
def Stands (g : Grammar) (x : Symbol) (group : List Site) : Prop := g.Divides [x] [group]

theorem divides_nil : g.Divides [] groups ↔ groups = [] := by
  constructor
  · rintro ⟨⟩
    rfl
  · rintro rfl
    exact .nil

theorem divides_cons : g.Divides (x :: xs) groups ↔
    ∃ group rest, groups = group :: rest ∧ g.Stands x group ∧ g.Divides xs rest := by
  constructor
  · intro divides
    cases divides with
    | terminal leaf kind rest => exact ⟨_, _, rfl, .terminal leaf kind .nil, rest⟩
    | visible node kind rest => exact ⟨_, _, rfl, .visible node kind .nil, rest⟩
    | hidden node production own rest => exact ⟨_, _, rfl, .hidden node production own .nil, rest⟩
  · rintro ⟨group, rest, rfl, stands, divides⟩
    cases stands with
    | terminal leaf kind => exact .terminal leaf kind divides
    | visible node kind => exact .visible node kind divides
    | hidden node production own => exact .hidden node production own divides

theorem divides_append {ys : List Symbol} : g.Divides (xs ++ ys) groups ↔
    ∃ front back, groups = front ++ back ∧ g.Divides xs front ∧ g.Divides ys back := by
  induction xs generalizing groups with
  | nil => simp [divides_nil]
  | cons x xs ih =>
    constructor
    · intro divides
      obtain ⟨group, rest, rfl, own, others⟩ := divides_cons.1 divides
      obtain ⟨front, back, rfl, first, second⟩ := ih.1 others
      exact ⟨group :: front, back, rfl, divides_cons.2 ⟨_, _, rfl, own, first⟩, second⟩
    · rintro ⟨front, back, rfl, first, second⟩
      obtain ⟨group, rest, rfl, own, others⟩ := divides_cons.1 first
      exact divides_cons.2 ⟨group, rest ++ back, rfl, own, ih.2 ⟨rest, back, rfl, others, second⟩⟩

theorem stands_terminal {k : Kind} :
    g.Stands (.terminal k) group ↔ ∃ c, group = [c] ∧ c.isLeaf = true ∧ c.kind = k := by
  constructor
  · intro stands
    cases stands with
    | terminal leaf kind => exact ⟨_, rfl, leaf, kind⟩
  · rintro ⟨c, rfl, leaf, kind⟩
    exact .terminal leaf kind .nil

theorem stands_visible {i : Nat} {k : Kind} (is : g.node? i = some k) :
    g.Stands (.nonterminal i) group ↔ ∃ c, group = [c] ∧ c.isLeaf = false ∧ c.kind = k := by
  constructor
  · intro stands
    cases stands with
    | visible node kind => exact ⟨_, rfl, node, Option.some.inj (kind.symm.trans is)⟩
    | hidden node => cases node.symm.trans is
  · rintro ⟨c, rfl, node, rfl⟩
    exact .visible node is .nil

theorem stands_hidden {i : Nat} (is : g.node? i = none) : g.Stands (.nonterminal i) group ↔
    ∃ p ∈ g.productions, p.lhs = i ∧ ∃ inner, g.Divides p.rhs inner ∧ group = inner.flatten := by
  constructor
  · intro stands
    cases stands with
    | visible node kind => cases kind.symm.trans is
    | hidden node production own => exact ⟨_, production, rfl, _, own, rfl⟩
  · rintro ⟨p, production, rfl, inner, own, rfl⟩
    exact .hidden is production own .nil

/-- Tokens of some kinds in a row. -/
theorem divides_terminals {ks : List Kind} : g.Divides (ks.map .terminal) groups ↔
    ∃ cs : List Site, groups = cs.map ([·]) ∧ (∀ c ∈ cs, c.isLeaf = true) ∧ cs.map Site.kind = ks := by
  induction ks generalizing groups with
  | nil =>
    rw [List.map_nil, divides_nil]
    constructor
    · rintro rfl
      exact ⟨[], rfl, nofun, rfl⟩
    · rintro ⟨cs, rfl, _, none⟩
      rw [List.map_eq_nil_iff.1 none, List.map_nil]
  | cons k ks ih =>
    rw [List.map_cons, divides_cons]
    constructor
    · rintro ⟨_, rest, rfl, own, others⟩
      obtain ⟨c, rfl, leaf, rfl⟩ := stands_terminal.1 own
      obtain ⟨cs, rfl, leaves, rfl⟩ := ih.1 others
      exact ⟨c :: cs, rfl, List.forall_mem_cons.2 ⟨leaf, leaves⟩, rfl⟩
    · rintro ⟨cs, rfl, leaves, kinds⟩
      obtain ⟨c, cs, rfl, rfl, others⟩ := List.map_eq_cons_iff.1 kinds
      obtain ⟨leaf, leaves⟩ := List.forall_mem_cons.1 leaves
      exact ⟨_, _, rfl, stands_terminal.2 ⟨c, rfl, leaf, rfl⟩, ih.2 ⟨cs, rfl, leaves, others⟩⟩

/-- Hidden nonterminals that come down to one node of a class. -/
def Chooses (g : Grammar) (choices : List Nat) (isIn : Kind → Bool) : Prop :=
  (∀ i ∈ choices, g.node? i = none) ∧ ∀ p ∈ g.productions.toList, p.lhs ∈ choices →
    ∃ j ∈ p.rhs.head?, p.rhs = [j] ∧
      (j ∈ choices.map Symbol.nonterminal ∨
        ∃ m < g.nonterminals.size, j = .nonterminal m ∧ (g.node? m).any isIn = true)

theorem Chooses.exists_node {choices : List Nat} {isIn : Kind → Bool} (chooses : g.Chooses choices isIn)
    {i : Nat} (choice : i ∈ choices) (stands : g.Stands (.nonterminal i) group) :
    ∃ c, group = [c] ∧ c.isLeaf = false ∧ isIn c.kind = true := by
  suffices every : ∀ {xs : List Symbol} {groups : List (List Site)}, g.Divides xs groups →
      ∀ i ∈ choices, xs = [.nonterminal i] → ∀ group, groups = [group] →
        ∃ c, group = [c] ∧ c.isLeaf = false ∧ isIn c.kind = true from every stands i choice rfl _ rfl
  intro xs groups divides
  induction divides with
  | nil => simp
  | terminal => simp
  | visible node kind =>
    intro i choice is group _
    obtain ⟨rfl⟩ := (List.cons.inj is).1
    cases kind.symm.trans (chooses.1 _ choice)
  | @hidden p xs inner groups _ production own _ ih =>
    intro i choice is group only
    obtain ⟨rfl⟩ := (List.cons.inj is).1
    obtain ⟨rfl, _⟩ := List.cons.inj only
    obtain ⟨j, _, rhs, again | ⟨m, _, rfl, known⟩⟩ :=
      chooses.2 p (Array.mem_toList_iff.2 production) choice
    · obtain ⟨m, choice', rfl⟩ := List.mem_map.1 again
      rw [rhs] at own
      obtain ⟨group, rest, rfl, _, none⟩ := divides_cons.1 own
      obtain rfl := divides_nil.1 none
      rw [List.flatten_singleton]
      exact ih m choice' rhs group rfl
    · obtain ⟨k, is, isIn⟩ := (Option.any_eq_true _ _).1 known
      rw [rhs] at own
      obtain ⟨group, rest, rfl, alone, none⟩ := divides_cons.1 own
      obtain rfl := divides_nil.1 none
      obtain ⟨c, rfl, node, rfl⟩ := (stands_visible is).1 alone
      exact ⟨c, rfl, node, isIn⟩

/-- Hidden nonterminals that come down to tokens. -/
def TokensOnly (g : Grammar) (words : List Nat) : Prop :=
  (∀ i ∈ words, g.node? i = none) ∧ ∀ p ∈ g.productions.toList, p.lhs ∈ words → ∀ x ∈ p.rhs,
    (∃ k ∈ Kind.terminals, x = .terminal k) ∨ x ∈ words.map Symbol.nonterminal

theorem TokensOnly.isLeaf {words : List Nat} (only : g.TokensOnly words) {i : Nat} (word : i ∈ words)
    (stands : g.Stands (.nonterminal i) group) : ∀ c ∈ group, c.isLeaf = true := by
  suffices every : ∀ {xs : List Symbol} {groups : List (List Site)}, g.Divides xs groups →
      (∀ x ∈ xs, (∃ k ∈ Kind.terminals, x = .terminal k) ∨ x ∈ words.map Symbol.nonterminal) →
        ∀ c ∈ groups.flatten, c.isLeaf = true by
    have := every stands (by simpa using word)
    simpa using this
  intro xs groups divides
  induction divides with
  | nil => simp
  | terminal leaf _ _ ih =>
    intro each c member
    rcases List.mem_cons.1 member with rfl | later
    · exact leaf
    · exact ih (fun x member => each x (.tail _ member)) c later
  | visible node kind _ ih =>
    intro each
    rcases each _ (.head _) with ⟨_, _, is⟩ | word
    · cases is
    · obtain ⟨i, word, is⟩ := List.mem_map.1 word
      obtain ⟨rfl⟩ := is
      cases kind.symm.trans (only.1 _ word)
  | @hidden p xs inner groups _ production own _ ihOwn ih =>
    intro each c member
    have word : p.lhs ∈ words := by simpa using each _ (.head _)
    rcases List.mem_append.1 member with front | back
    · exact ihOwn (only.2 p (Array.mem_toList_iff.2 production) word) c front
    · exact ih (fun x member => each x (.tail _ member)) c back

/-- Items with the same marks between each two of them, and the items alone. -/
inductive Listed (marks : List Kind) : List Site → List Site → Prop
  | one (c : Site) : Listed marks [c] [c]
  | more {group items between : List Site} (c : Site) (before : Listed marks group items)
      (leaves : ∀ m ∈ between, m.isLeaf = true) (kinds : between.map Site.kind = marks) :
      Listed marks (group ++ between ++ [c]) (items ++ [c])

theorem Listed.eq {group items : List Site} (listed : Listed [] group items) : group = items := by
  induction listed with
  | one => rfl
  | more c _ _ kinds ih => rw [ih, List.map_eq_nil_iff.1 kinds, List.append_nil]

/-- What a hidden nonterminal for a list of items stands for. -/
theorem exists_listed (marks : List Kind) {i : Nat} {holds : Site → Prop} (hidden : g.node? i = none)
    (forms : ∀ p ∈ g.productions.toList, p.lhs = i →
      p.rhs = [x] ∨ p.rhs = .nonterminal i :: (marks.map .terminal ++ [x]))
    (item : ∀ group, g.Stands x group → ∃ c, group = [c] ∧ holds c)
    (stands : g.Stands (.nonterminal i) group) :
    ∃ items, Listed marks group items ∧ ∀ c ∈ items, holds c := by
  induction length : group.length using Nat.strong_induction_on generalizing group with
  | _ n ih =>
    obtain ⟨p, production, lhs, inner, divides, rfl⟩ := (stands_hidden hidden).1 stands
    rcases forms p (Array.mem_toList_iff.2 production) lhs with rhs | rhs
    · rw [rhs] at divides
      obtain ⟨_, _, rfl, own, none⟩ := divides_cons.1 divides
      obtain rfl := divides_nil.1 none
      obtain ⟨c, rfl, is⟩ := item _ own
      exact ⟨[c], .one c, by simpa using is⟩
    · rw [rhs] at divides
      obtain ⟨front, _, rfl, before, divides⟩ := divides_cons.1 divides
      obtain ⟨_, _, rfl, between, last⟩ := divides_append.1 divides
      obtain ⟨cs, rfl, leaves, kinds⟩ := divides_terminals.1 between
      obtain ⟨_, _, rfl, own, none⟩ := divides_cons.1 last
      obtain rfl := divides_nil.1 none
      obtain ⟨c, rfl, is⟩ := item _ own
      have whole : (front :: (cs.map ([·]) ++ [[c]])).flatten = front ++ cs ++ [c] := by
        have single : (cs.map ([·])).flatten = cs := by
          rw [← List.flatMap_def, List.flatMap_singleton']
        simp [single]
      have less : front.length < n := by
        rw [← length, whole, List.append_assoc, List.length_append, List.length_append]
        simp
      obtain ⟨items, listed, each⟩ := ih front.length less before rfl
      refine ⟨items ++ [c], whole ▸ .more c listed leaves kinds, ?_⟩
      exact List.forall_mem_append.2 ⟨each, by simpa using is⟩

end Grammar

end ShaderTree
