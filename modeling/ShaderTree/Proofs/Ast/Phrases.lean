import ShaderTree.Ast.Item
import ShaderTree.Proofs.Ast.Parts
import ShaderTree.Proofs.Metal.Table

/-! What the phrases of the built-in grammar come to: the forms of a phrase, and what stands in a node
for a hidden one. -/
namespace ShaderTree

namespace Metal

/-- The right-hand sides of a phrase. -/
def Phrase.forms (phrase : Phrase) : List (List Symbol) :=
  (grammar.productions.toList.filter (·.lhs = phrase.index)).map (·.rhs)

variable {s c : Site} {phrase : Phrase} {group : List Site}

theorem hasTerminals : grammar.HasTerminals := Grammar.hasTerminals_of_validate validate_grammar

theorem node?_index (phrase : Phrase) : grammar.node? phrase.index = phrase.nonterminal.node? := by
  cases phrase <;> rfl

/-- No node is of the kind of a token. -/
theorem isTerminal_of_node? {i : Nat} {k : Kind} (is : grammar.node? i = some k) :
    k.isTerminal = false := by
  have every : ∀ n ∈ grammar.nonterminals.toList, ∀ k ∈ n.node?, k.isTerminal = false := by decide
  obtain ⟨n, known, named⟩ := Option.bind_eq_some_iff.1 is
  exact every n (Array.mem_toList_iff.2 (Array.mem_of_getElem? known)) k named

/-- All nodes of a parse without repairs below them are whole. -/
theorem whole_of_parsed {t : Table} (built : table = .ok t) {text : String} {d : Document}
    (parsed : Parsed (fun l => table = .ok l.table) text d) (inside : s ∈ (Site.root d.root).descendants)
    (sound : Ast.hasErrors s = false) : s.tree.Whole grammar := by
  have known : s.tree ∈ d.root.nodes := by
    have known : s.tree ∈ (Site.root d.root).tree.nodes :=
      Site.map_tree_descendants (Site.root d.root) ▸ List.mem_map_of_mem inside
    exact known
  have conforms : d.root.AllConform grammar := by
    refine (parsed.conforms namesNodes fun t built => ?_).1
    rw [action_start_eof built]
    simp
  have grown := (parsed.grown built).of_mem_nodes known
  exact {
    conforms := fun v below => conforms v ((Tree.sublist_of_mem_nodes known).subset below)
    faultless := Site.hasErrors_eq_false.1 sound
    leaves := grown.leaves
    nodes := by
      intro v below
      have made := grown.nodes v below
      generalize v.record? = record at made
      cases made with
      | repair reserved =>
        have kind := Site.hasErrors_eq_false.1 sound v.kind (List.mem_map_of_mem below)
        rcases reserved with is | is | is <;> rw [is] at kind ⊢
        · cases kind
        · cases kind
        · rfl
      | reduction known node =>
        obtain ⟨_, _, _, _, _, is⟩ := Table.reduction_eq (Table.build_ok built) known
        exact isTerminal_of_node? (is.symm.trans node) }

end Metal

namespace Ast

open Metal Grammar

variable {s c : Site} {phrase : Phrase} {group : List Site}

/-- The node is one of the phrase, and its parts are those of a form of the phrase. -/
structure Reads (s : Site) (phrase : Phrase) (form : List Symbol) (groups : List (List Site)) : Prop where
  kind : phrase.nonterminal.node? = some s.kind
  known : form ∈ phrase.forms
  divides : grammar.Divides form groups
  parts : s.parts = groups.flatten

theorem Reads.kind_eq {form : List Symbol} {groups : List (List Site)} (reads : Reads s phrase form groups)
    {k : Kind} (is : phrase.nonterminal.node? = some k) : s.kind = k :=
  Option.some.inj (reads.kind.symm.trans is)

/-- A phrase with one form is read in that. -/
theorem Reads.eq_of_forms {form only : List Symbol} {groups : List (List Site)}
    (reads : Reads s phrase form groups) (forms : phrase.forms = [only]) : form = only := by
  have known := reads.known
  rw [forms] at known
  exact List.mem_singleton.1 known

theorem Reads.eq_or_eq_of_forms {form a b : List Symbol} {groups : List (List Site)}
    (reads : Reads s phrase form groups) (forms : phrase.forms = [a, b]) : form = a ∨ form = b := by
  have known := reads.known
  rw [forms] at known
  exact List.mem_pair.1 known

theorem exists_reads (phrase : Phrase) (whole : s.tree.Whole grammar)
    (is : phrase.nonterminal.node? = some s.kind) :
    ∃ form groups, Reads s phrase form groups := by
  have known : grammar.node? phrase.index = some s.kind := (node?_index phrase).trans is
  have node : s.isNode = true := by
    rw [Site.isNode, Site.isLeaf, whole.isLeaf_eq]
    exact congrArg not (isTerminal_of_node? known)
  obtain ⟨p, production, lhs, groups, divides, parts⟩ :=
    exists_divides hasTerminals (fun _ _ => isTerminal_of_node?) whole node known
  refine ⟨p.rhs, groups, is, List.mem_map_of_mem (List.mem_filter.2 ⟨?_, decide_eq_true lhs⟩), divides,
    parts⟩
  exact Array.mem_toList_iff.2 production

/-- A visible phrase stands for its node. -/
theorem node_of_stands (phrase : Phrase) {k : Kind} (is : phrase.nonterminal.node? = some k)
    (stands : grammar.Stands (n phrase) group) : ∃ c, group = [c] ∧ c.isLeaf = false ∧ c.kind = k :=
  (stands_visible ((node?_index phrase).trans is)).1 stands

set_option maxRecDepth 10000 in
theorem expression_of_stands (stands : grammar.Stands (n .expression) group) :
    ∃ c, group = [c] ∧ c.isLeaf = false ∧ isExpression c.kind = true := by
  have chooses : grammar.Chooses [Phrase.expression.index] isExpression := by
    unfold Chooses
    decide
  exact chooses.exists_node (List.mem_singleton_self _) stands

set_option maxRecDepth 10000 in
theorem statement_of_stands (stands : grammar.Stands (n .statement) group) :
    ∃ c, group = [c] ∧ c.isLeaf = false ∧ isStatement c.kind = true := by
  have chooses : grammar.Chooses [Phrase.statement.index] isStatement := by
    unfold Chooses
    decide
  exact chooses.exists_node (List.mem_singleton_self _) stands

set_option maxRecDepth 10000 in
theorem init_of_stands (stands : grammar.Stands (n .forInit) group) :
    ∃ c, group = [c] ∧ c.isLeaf = false ∧ isStatement c.kind = true := by
  have chooses : grammar.Chooses [Phrase.forInit.index] isStatement := by
    unfold Chooses
    decide
  exact chooses.exists_node (List.mem_singleton_self _) stands

set_option maxRecDepth 10000 in
theorem tokensOnly_qualifiers :
    grammar.TokensOnly [Phrase.qualifiers.index, Phrase.qualifier.index] := by
  unfold TokensOnly
  decide

set_option maxRecDepth 10000 in
/-- A type and the qualifiers in front of it. -/
theorem type_of_stands (stands : grammar.Stands (n .specifiers) group) :
    ∃ qualifiers c, group = qualifiers ++ [c] ∧ (∀ q ∈ qualifiers, q.isLeaf = true) ∧
      c.isLeaf = false ∧ isType c.kind = true := by
  have chooses : grammar.Chooses [Phrase.typeSpecifier.index] isType := by
    unfold Chooses
    decide
  have forms : ∀ p ∈ grammar.productions.toList, p.lhs = Phrase.specifiers.index →
      p.rhs = [n .typeSpecifier] ∨ p.rhs = [n .qualifiers, n .typeSpecifier] := by
    decide
  obtain ⟨p, production, lhs, inner, divides, rfl⟩ :=
    (stands_hidden (node?_index .specifiers)).1 stands
  rcases forms p (Array.mem_toList_iff.2 production) lhs with rhs | rhs <;> rw [rhs] at divides <;>
    simp only [divides_cons, divides_nil] at divides
  · obtain ⟨_, _, rfl, own, rfl⟩ := divides
    obtain ⟨c, rfl, is⟩ := chooses.exists_node (List.mem_singleton_self _) own
    exact ⟨[], c, rfl, nofun, is⟩
  · obtain ⟨qualifiers, _, rfl, before, _, _, rfl, own, rfl⟩ := divides
    obtain ⟨c, rfl, is⟩ := chooses.exists_node (List.mem_singleton_self _) own
    exact ⟨qualifiers, c, by simp, tokensOnly_qualifiers.isLeaf (.head _) before, is⟩

set_option maxRecDepth 10000 in
theorem arguments_of_stands (stands : grammar.Stands (n .arguments) group) :
    ∃ items, Listed [.comma] group items ∧
      ∀ c ∈ items, c.isLeaf = false ∧ isExpression c.kind = true :=
  exists_listed [.comma] (node?_index .arguments) (by decide) (fun _ => expression_of_stands) stands

set_option maxRecDepth 10000 in
theorem statements_of_stands (stands : grammar.Stands (n .statements) group) :
    ∃ items, Listed [] group items ∧ ∀ c ∈ items, c.isLeaf = false ∧ isStatement c.kind = true :=
  exists_listed [] (node?_index .statements) (by decide) (fun _ => statement_of_stands) stands

set_option maxRecDepth 10000 in
theorem path_of_stands (stands : grammar.Stands (n .path) group) :
    ∃ items, Listed [.colonColon] group items ∧ ∀ c ∈ items, c.isLeaf = true ∧ c.kind = .ident :=
  exists_listed [.colonColon] (node?_index .path) (by decide) (fun _ => stands_terminal.1) stands

/-- What declares a name, or the name itself. -/
def isDeclarator (k : Kind) : Bool := isNamed k || k = .name

set_option maxRecDepth 10000 in
theorem choosesDeclarators :
    grammar.Chooses [Phrase.declarator.index, Phrase.directDeclarator.index] isDeclarator := by
  unfold Chooses
  decide

theorem declarator_of_stands (stands : grammar.Stands (n .declarator) group) :
    ∃ c, group = [c] ∧ c.isLeaf = false ∧ isDeclarator c.kind = true :=
  choosesDeclarators.exists_node (.head _) stands

theorem directDeclarator_of_stands (stands : grammar.Stands (n .directDeclarator) group) :
    ∃ c, group = [c] ∧ c.isLeaf = false ∧ isDeclarator c.kind = true :=
  choosesDeclarators.exists_node (.tail _ (.head _)) stands

set_option maxRecDepth 10000 in
theorem attrSpecifiers_of_stands (stands : grammar.Stands (n .attrSpecifiers) group) :
    ∀ c ∈ group, c.isLeaf = false ∧ c.kind = .attrSpecifier := by
  obtain ⟨items, listed, each⟩ := exists_listed [] (node?_index .attrSpecifiers) (by decide)
    (fun _ => node_of_stands .attrSpecifier rfl) stands
  rwa [listed.eq]

/-- Qualifiers are tokens. -/
theorem qualifiers_of_stands (stands : grammar.Stands (n .qualifiers) group) :
    ∀ q ∈ group, q.isLeaf = true :=
  tokensOnly_qualifiers.isLeaf (.head _) stands

end Ast

end ShaderTree
