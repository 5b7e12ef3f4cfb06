import ShaderTree.Proofs.Ast.Marks
import ShaderTree.Proofs.Ast.Phrases
import ShaderTree.Proofs.Metal.Plans
import ShaderTree.Proofs.Parser.Bound

/-! The declarator of a function definition. Its own declarators form a chain, in which pointers, references
and arrays each wrap the next one. The definition looks for the first function declarator at any depth
below what is no type and no block, and that is the one on the chain unless an attribute in front of the
definition hides another one in an expression of its own. -/
namespace ShaderTree.Ast

open Metal Grammar
open Relation (ReflTransGen)

/-- A pointer, reference or array and what it wraps, the next declarator or the name. -/
def Wraps (b c : Site) : Prop := isWrapper b.kind = true ∧ c ∈ b.childNodes ∧ isDeclarator c.kind = true

/-- The chain of declarators of a node: the one below it, and those that this one leads to. -/
def OnChain (s c : Site) : Prop := ∃ d ∈ s.childNodes, isDeclarator d.kind = true ∧ ReflTransGen Wraps d c

/-- The function declarator among the declarators of a node. -/
def Owns (s f : Site) : Prop := OnChain s f ∧ f.kind = .functionDeclarator

/-- There is no function declarator at or below a site. -/
def HidesNone (s : Site) : Prop := ∀ c ∈ s.descendants, c.kind ≠ .functionDeclarator

/-- The first function declarator at or below a site. -/
def firstFunction? (s : Site) : Option Site := s.descendants.find? fun c => c.kind = .functionDeclarator

variable {s b c d f : Site} {form : List Symbol} {groups : List (List Site)}

theorem firstFunction?_eq_none (hides : HidesNone s) : firstFunction? s = none := by
  refine List.find?_eq_none.2 fun c member => ?_
  simpa using hides c member

/-- Below a node the first one is looked for in one child after the other. -/
theorem firstFunction?_eq (node : s.isNode = true) (other : s.kind ≠ .functionDeclarator) :
    firstFunction? s = s.childNodes.findSome? firstFunction? := by
  rw [firstFunction?, Site.descendants_eq node, List.find?_cons_of_neg (by simpa using other),
    List.find?_flatMap]
  rfl

theorem firstFunction?_self (node : s.isNode = true) (is : s.kind = .functionDeclarator) :
    firstFunction? s = some s := by
  rw [firstFunction?, Site.descendants_eq node, List.find?_cons_of_pos (by simpa using is)]

theorem not_declarator_of_expression {k : Kind} (is : isExpression k = true) : isDeclarator k = false := by
  cases k <;> first | rfl | cases is

set_option maxRecDepth 10000 in
/-- A wrapper wraps one declarator, and behind it an array may have a bound. -/
theorem childNodes_of_wrapper (whole : s.tree.Whole grammar) (wraps : isWrapper s.kind = true) :
    ∃ (c : Site) (bound : Option Site), s.childNodes = c :: bound.toList ∧ isDeclarator c.kind = true ∧
      ∀ e ∈ bound, isExpression e.kind = true ∧ s.kind = .arrayDeclarator := by
  have kinds : s.kind = .pointerDeclarator ∨ s.kind = .referenceDeclarator ∨ s.kind = .arrayDeclarator := by
    generalize s.kind = k at wraps
    cases k <;> first | decide | cases wraps
  rcases kinds with is | is | is
  · have forms : Phrase.pointerDeclarator.forms =
        [[t .star, n .declarator], [t .star, n .qualifiers, n .declarator]] := by decide
    obtain ⟨form, groups, reads⟩ := exists_reads .pointerDeclarator whole (is ▸ rfl)
    have divides := reads.divides
    rcases reads.eq_or_eq_of_forms forms with rfl | rfl <;> simp only [divides_cons, divides_nil] at divides
    · obtain ⟨_, _, rfl, star, _, _, rfl, inner, rfl⟩ := divides
      obtain ⟨m, rfl, m_leaf, _⟩ := stands_terminal.1 star
      obtain ⟨c, rfl, c_node, c_is⟩ := declarator_of_stands inner
      have parts : s.parts = [m, c] := reads.parts
      exact ⟨c, none, by simp [Site.childNodes_eq, Site.isNode, *], c_is, nofun⟩
    · obtain ⟨_, _, rfl, star, group, _, rfl, between, _, _, rfl, inner, rfl⟩ := divides
      obtain ⟨m, rfl, m_leaf, _⟩ := stands_terminal.1 star
      obtain ⟨c, rfl, c_node, c_is⟩ := declarator_of_stands inner
      have parts : s.parts = m :: (group ++ [c]) := by simpa using reads.parts
      have tokens : group.filter Site.isNode = [] := by
        refine List.filter_eq_nil_iff.2 fun q member => ?_
        simp [Site.isNode, qualifiers_of_stands between q member]
      refine ⟨c, none, ?_, c_is, nofun⟩
      rw [Site.childNodes_eq, parts, List.filter_cons, List.filter_append, tokens]
      simp [Site.isNode, *]
  · have forms : Phrase.referenceDeclarator.forms = [[t .amp, n .declarator]] := by decide
    obtain ⟨form, groups, reads⟩ := exists_reads .referenceDeclarator whole (is ▸ rfl)
    obtain rfl := reads.eq_of_forms forms
    have divides := reads.divides
    simp only [divides_cons, divides_nil] at divides
    obtain ⟨_, _, rfl, sign, _, _, rfl, inner, rfl⟩ := divides
    obtain ⟨m, rfl, m_leaf, _⟩ := stands_terminal.1 sign
    obtain ⟨c, rfl, c_node, c_is⟩ := declarator_of_stands inner
    have parts : s.parts = [m, c] := reads.parts
    exact ⟨c, none, by simp [Site.childNodes_eq, Site.isNode, *], c_is, nofun⟩
  · have forms : Phrase.arrayDeclarator.forms = [[n .directDeclarator, t .lBracket, t .rBracket],
        [n .directDeclarator, t .lBracket, n .expression, t .rBracket]] := by decide
    obtain ⟨form, groups, reads⟩ := exists_reads .arrayDeclarator whole (is ▸ rfl)
    have divides := reads.divides
    rcases reads.eq_or_eq_of_forms forms with rfl | rfl <;> simp only [divides_cons, divides_nil] at divides
    · obtain ⟨_, _, rfl, inner, _, _, rfl, left, _, _, rfl, right, rfl⟩ := divides
      obtain ⟨c, rfl, c_node, c_is⟩ := directDeclarator_of_stands inner
      obtain ⟨l, rfl, l_leaf, _⟩ := stands_terminal.1 left
      obtain ⟨r, rfl, r_leaf, _⟩ := stands_terminal.1 right
      have parts : s.parts = [c, l, r] := reads.parts
      exact ⟨c, none, by simp [Site.childNodes_eq, Site.isNode, *], c_is, nofun⟩
    · obtain ⟨_, _, rfl, inner, _, _, rfl, left, _, _, rfl, size, _, _, rfl, right, rfl⟩ := divides
      obtain ⟨c, rfl, c_node, c_is⟩ := directDeclarator_of_stands inner
      obtain ⟨l, rfl, l_leaf, _⟩ := stands_terminal.1 left
      obtain ⟨e, rfl, e_node, e_is⟩ := expression_of_stands size
      obtain ⟨r, rfl, r_leaf, _⟩ := stands_terminal.1 right
      have parts : s.parts = [c, l, e, r] := reads.parts
      exact ⟨c, some e, by simp [Site.childNodes_eq, Site.isNode, *], c_is, by simp [e_is, is]⟩

set_option maxRecDepth 10000 in
/-- A function declarator holds its name and its parameters. -/
theorem childNodes_of_function (whole : s.tree.Whole grammar) (is : s.kind = .functionDeclarator) :
    ∃ name list, s.childNodes = [name, list] ∧ name.kind = .name ∧ list.kind = .parameterList := by
  have forms : Phrase.functionDeclarator.forms = [[n .name, n .parameterList]] := by decide
  obtain ⟨form, groups, reads⟩ := exists_reads .functionDeclarator whole (is ▸ rfl)
  obtain rfl := reads.eq_of_forms forms
  have divides := reads.divides
  simp only [divides_cons, divides_nil] at divides
  obtain ⟨_, _, rfl, first, _, _, rfl, second, rfl⟩ := divides
  obtain ⟨name, rfl, name_node, name_is⟩ := node_of_stands .name rfl first
  obtain ⟨list, rfl, list_node, list_is⟩ := node_of_stands .parameterList rfl second
  have parts : s.parts = [name, list] := reads.parts
  exact ⟨name, list, by simp [Site.childNodes_eq, Site.isNode, *], name_is, list_is⟩

set_option maxRecDepth 10000 in
/-- A name has nothing below it. -/
theorem childNodes_of_name (whole : s.tree.Whole grammar) (is : s.kind = .name) : s.childNodes = [] := by
  have forms : Phrase.name.forms = [[t .ident]] := by decide
  obtain ⟨form, groups, reads⟩ := exists_reads .name whole (is ▸ rfl)
  obtain rfl := reads.eq_of_forms forms
  have divides := reads.divides
  simp only [divides_cons, divides_nil] at divides
  obtain ⟨_, _, rfl, only, rfl⟩ := divides
  obtain ⟨w, rfl, w_leaf, _⟩ := stands_terminal.1 only
  have parts : s.parts = [w] := reads.parts
  simp [Site.childNodes_eq, Site.isNode, *]

set_option maxRecDepth 10000 in
/-- A function definition has attributes, a type, its declarator and a block. -/
theorem childNodes_of_definition (whole : s.tree.Whole grammar) (is : s.kind = .functionDefinition) :
    ∃ attributes type d body, s.childNodes = attributes ++ [type, d, body] ∧
      (∀ a ∈ attributes, a.kind = .attrSpecifier) ∧ isType type.kind = true ∧
        isDeclarator d.kind = true ∧ body.kind = .compoundStatement := by
  have forms : Phrase.functionDefinition.forms = [[n .specifiers, n .declarator, n .compoundStatement],
      [n .attrSpecifiers, n .specifiers, n .declarator, n .compoundStatement]] := by decide
  obtain ⟨form, groups, reads⟩ := exists_reads .functionDefinition whole (is ▸ rfl)
  have split : ∃ attributes rest, groups.flatten = attributes ++ rest.flatten ∧
      (∀ a ∈ attributes, a.isLeaf = false ∧ a.kind = .attrSpecifier) ∧
        grammar.Divides [n .specifiers, n .declarator, n .compoundStatement] rest := by
    rcases reads.eq_or_eq_of_forms forms with rfl | rfl
    · exact ⟨[], groups, rfl, nofun, reads.divides⟩
    · obtain ⟨attributes, rest, rfl, own, others⟩ := divides_cons.1 reads.divides
      exact ⟨attributes, rest, rfl, attrSpecifiers_of_stands own, others⟩
  obtain ⟨attributes, rest, same, attributes_are, divides⟩ := split
  simp only [divides_cons, divides_nil] at divides
  obtain ⟨group, _, rfl, specifiers, _, _, rfl, own, _, _, rfl, block, rfl⟩ := divides
  obtain ⟨qualifiers, type, rfl, tokens, type_node, type_is⟩ := type_of_stands specifiers
  obtain ⟨d, rfl, d_node, d_is⟩ := declarator_of_stands own
  obtain ⟨body, rfl, body_node, body_is⟩ := node_of_stands .compoundStatement rfl block
  have parts : s.parts = attributes ++ (qualifiers ++ [type, d, body]) := by
    rw [reads.parts, same]
    simp
  have first : attributes.filter Site.isNode = attributes := by
    refine List.filter_eq_self.2 fun a member => ?_
    simp [Site.isNode, attributes_are a member]
  have none : qualifiers.filter Site.isNode = [] := by
    refine List.filter_eq_nil_iff.2 fun q member => ?_
    simp [Site.isNode, tokens q member]
  refine ⟨attributes, type, d, body, ?_, fun a member => (attributes_are a member).2, type_is, d_is, body_is⟩
  rw [Site.childNodes_eq, parts, List.filter_append, List.filter_append, first, none]
  simp [Site.isNode, *]

theorem whole_of_mem_childNodes (whole : s.tree.Whole grammar) (inside : c ∈ s.childNodes) :
    c.tree.Whole grammar :=
  Site.whole_of_mem_parts whole (List.mem_filter.1 (Site.childNodes_eq s ▸ inside)).1

theorem whole_and_node (whole : s.tree.Whole grammar) (inside : c ∈ s.childNodes) :
    c.tree.Whole grammar ∧ c.isNode = true :=
  ⟨whole_of_mem_childNodes whole inside, (List.mem_filter.1 inside).2⟩

/-- What a declarator wraps is the first node below it. -/
theorem Wraps.childNodes (whole : b.tree.Whole grammar) (link : Wraps b c) :
    ∃ bound : Option Site, b.childNodes = c :: bound.toList ∧
      ∀ e ∈ bound, isExpression e.kind = true ∧ b.kind = .arrayDeclarator := by
  obtain ⟨wraps, inside, declares⟩ := link
  obtain ⟨own, bound, children, _, bound_is⟩ := childNodes_of_wrapper whole wraps
  rw [children] at inside
  rcases List.mem_cons.1 inside with rfl | other
  · exact ⟨bound, children, bound_is⟩
  · have plain := not_declarator_of_expression (bound_is c (by simpa using other)).1
    rw [declares] at plain
    cases plain

/-- On a chain of declarators the function declarator is the first one of all that are below. -/
theorem firstFunction?_of_chain (whole : d.tree.Whole grammar) (node : d.isNode = true)
    (chain : ReflTransGen Wraps d f) (is : f.kind = .functionDeclarator) :
    firstFunction? d = some f := by
  induction chain using ReflTransGen.head_induction_on with
  | refl => exact firstFunction?_self node is
  | @head b c link _ ih =>
    obtain ⟨bound, children, _⟩ := link.childNodes whole
    obtain ⟨below, below_node⟩ := whole_and_node whole link.2.1
    have other : b.kind ≠ .functionDeclarator := by
      intro is
      have wraps := link.1
      rw [is] at wraps
      cases wraps
    rw [firstFunction?_eq node other, children, List.findSome?_cons, ih below below_node]

/-- Without a function declarator on the chain, there is none but in bounds of arrays. -/
theorem firstFunction?_of_none {height : Nat} (low : Site.heightOf d.tree ≤ height)
    (whole : d.tree.Whole grammar) (node : d.isNode = true) (declares : isDeclarator d.kind = true)
    (others : ∀ f, ReflTransGen Wraps d f → f.kind ≠ .functionDeclarator)
    (bounds : ∀ b, ReflTransGen Wraps d b → b.kind = .arrayDeclarator → ∀ e ∈ expressions b, HidesNone e) :
    firstFunction? d = none := by
  induction height generalizing d with
  | zero =>
    obtain ⟨u, start, above⟩ := d
    cases u with
    | leaf => cases node
    | node => cases Nat.le_zero.1 low
  | succ height ih =>
    rw [firstFunction?_eq node (others d .refl)]
    by_cases wraps : isWrapper d.kind = true
    · obtain ⟨c, bound, children, c_is, bound_is⟩ := childNodes_of_wrapper whole wraps
      have inside : c ∈ d.childNodes := by simp [children]
      obtain ⟨below, below_node⟩ := whole_and_node whole inside
      have link : Wraps d c := ⟨wraps, inside, c_is⟩
      have less : Site.heightOf c.tree < Site.heightOf d.tree := Site.heightOf_lt (List.mem_filter.1 inside).1
      have first := ih (by omega) below below_node c_is (fun f chain => others f (.head link chain))
        (fun b chain => bounds b (.head link chain))
      have second : ∀ e ∈ bound, firstFunction? e = none := by
        intro e member
        obtain ⟨is, array⟩ := bound_is e member
        refine firstFunction?_eq_none (bounds d .refl array e ?_)
        have inside : e ∈ d.childNodes := by
          rw [children]
          exact .tail _ (Option.mem_toList.2 member)
        exact List.mem_filter.2 ⟨inside, is⟩
      rw [children, List.findSome?_cons, first]
      cases bound with
      | none => rfl
      | some e => simp [second e rfl]
    · have is : d.kind = .name := by
        have own := others d .refl
        simp only [isDeclarator, isNamed, Bool.or_eq_true, decide_eq_true_eq] at declares
        rcases declares with (wraps' | function) | name
        · exact absurd wraps' wraps
        · exact absurd function own
        · exact name
      rw [childNodes_of_name whole is, List.findSome?_nil]

/-- The name is looked for in the first declarator below, which is no name if it leads to a function. -/
theorem declaredNameIn_eq {height : Nat} (first : s.childNodes.find? (fun c => isDeclarator c.kind) = some d)
    (chain : ReflTransGen Wraps d f) (is : f.kind = .functionDeclarator) :
    declaredNameIn (height + 1) s = declaredNameIn height d := by
  have found : s.childNodes.find? (fun c => c.kind = .name || isNamed c.kind) = some d := by
    simpa only [isDeclarator, Bool.or_comm] using first
  have other : d.kind ≠ .name := by
    intro name
    rcases chain.cases_head with rfl | ⟨c, link, _⟩
    · cases is.symm.trans name
    · have wraps := link.1
      rw [name] at wraps
      cases wraps
  simp only [declaredNameIn, found, if_neg other]

/-- The name at the end of a chain of declarators is that of its function declarator. -/
theorem declaredNameIn_of_chain {height : Nat} {name : Site} (low : Site.heightOf d.tree ≤ height)
    (whole : d.tree.Whole grammar) (node : d.isNode = true) (chain : ReflTransGen Wraps d f)
    (is : f.kind = .functionDeclarator) (named : childOf? f .name = some name) :
    declaredNameIn height d = some name := by
  induction height generalizing d with
  | zero =>
    obtain ⟨u, start, above⟩ := d
    cases u with
    | leaf => cases node
    | node => cases Nat.le_zero.1 low
  | succ height ih =>
    rcases chain.cases_head with rfl | ⟨c, link, chain⟩
    · obtain ⟨own, list, children, own_is, list_is⟩ := childNodes_of_function whole is
      have same : own = name := by
        simpa [childOf?, childrenOf, childrenIn, children, own_is] using named
      simp [declaredNameIn, children, ← same, own_is]
    · obtain ⟨bound, children, _⟩ := link.childNodes whole
      obtain ⟨below, below_node⟩ := whole_and_node whole link.2.1
      have less := Site.heightOf_lt (List.mem_filter.1 link.2.1).1
      have first : d.childNodes.find? (fun c => isDeclarator c.kind) = some c := by
        rw [children, List.find?_cons_of_pos (by simpa using link.2.2)]
      rw [declaredNameIn_eq first chain is]
      exact ih (by omega) below below_node chain

theorem not_declarator_of_type {k : Kind} (is : isType k = true) : isDeclarator k = false := by
  cases k <;> first | rfl | cases is

theorem not_type_of_declarator {k : Kind} (is : isDeclarator k = true) :
    k ≠ .compoundStatement ∧ isType k = false := by
  cases k <;> first | decide | cases is

/-- Of the nodes below a function definition only one declares. -/
theorem exists_declarator (whole : s.tree.Whole grammar) (is : s.kind = .functionDefinition) :
    ∃ d ∈ s.childNodes, s.childNodes.filter (fun c => isDeclarator c.kind) = [d] ∧
      (s.childNodes.filter fun c => c.kind ≠ .compoundStatement && !isType c.kind) =
        Attribute.specifiers s ++ [d] := by
  obtain ⟨front, type, d, body, children, front_is, type_is, d_is, body_is⟩ :=
    childNodes_of_definition whole is
  have own : isDeclarator .attrSpecifier = false ∧ isType .attrSpecifier = false ∧
      isDeclarator .compoundStatement = false := by decide
  have type_other : isDeclarator type.kind = false ∧ type.kind ≠ .attrSpecifier := by
    refine ⟨not_declarator_of_type type_is, fun is => ?_⟩
    rw [is] at type_is
    cases type_is
  have d_other := not_type_of_declarator d_is
  have d_other' : d.kind ≠ .attrSpecifier := by
    intro is
    rw [is] at d_is
    cases d_is
  have none : front.filter (fun c => isDeclarator c.kind) = [] :=
    List.filter_eq_nil_iff.2 fun a member => by simp [front_is a member, own]
  have kept : front.filter (fun c => c.kind ≠ .compoundStatement && !isType c.kind) = front :=
    List.filter_eq_self.2 fun a member => by simp [front_is a member, own]
  have attributes : Attribute.specifiers s = front := by
    have all : front.filter (fun c => c.kind = .attrSpecifier) = front :=
      List.filter_eq_self.2 fun a member => by simp [front_is a member]
    rw [Attribute.specifiers, childrenOf, childrenIn, children, List.filter_append, all]
    simp [type_other, d_other', body_is]
  refine ⟨d, by simp [children], ?_, ?_⟩
  · rw [children, List.filter_append, none]
    simp [type_other, d_is, body_is, own]
  · rw [children, attributes, List.filter_append, kept]
    simp [type_is, body_is, d_other]

/-- Where a function definition looks for its declarator. -/
theorem declarator?_eq (whole : s.tree.Whole grammar) (is : s.kind = .functionDefinition)
    (attributes : ∀ a ∈ Attribute.specifiers s, HidesNone a) :
    ∃ d ∈ s.childNodes, s.childNodes.find? (fun c => isDeclarator c.kind) = some d ∧
      (∀ c, OnChain s c ↔ ReflTransGen Wraps d c) ∧ Function.declarator? s = firstFunction? d := by
  obtain ⟨d, inside, only, kept⟩ := exists_declarator whole is
  have first : s.childNodes.find? (fun c => isDeclarator c.kind) = some d := by
    rw [← List.head?_filter, only, List.head?_cons]
  have skipped : (Attribute.specifiers s).findSome? firstFunction? = none :=
    List.findSome?_eq_none_iff.2 fun a member => firstFunction?_eq_none (attributes a member)
  have found : Function.declarator? s = (Attribute.specifiers s ++ [d]).findSome? firstFunction? := by
    rw [← kept]
    rfl
  refine ⟨d, inside, first, fun c => ⟨?_, fun chain => ?_⟩, ?_⟩
  · rintro ⟨d', inside', declares, chain⟩
    have same : d' ∈ [d] := only ▸ List.mem_filter.2 ⟨inside', declares⟩
    rwa [List.mem_singleton.1 same] at chain
  · exact ⟨d, inside, by simpa using List.find?_some first, chain⟩
  · rw [found, List.findSome?_append, skipped, Option.none_or, List.findSome?_singleton]

theorem whole_of_chain (whole : d.tree.Whole grammar) (chain : ReflTransGen Wraps d f) :
    f.tree.Whole grammar := by
  induction chain with
  | refl => exact whole
  | tail _ link ih => exact whole_of_mem_childNodes ih link.2.1

/-- The definition finds the function declarator that it owns, under the name that is found for it. -/
theorem declarator?_of_owns (whole : s.tree.Whole grammar) (is : s.kind = .functionDefinition)
    (attributes : ∀ a ∈ Attribute.specifiers s, HidesNone a) (owns : Owns s f) :
    Function.declarator? s = some f ∧ Function.name? s = declaredText? s := by
  obtain ⟨d, inside, first, chains, found⟩ := declarator?_eq whole is attributes
  obtain ⟨below, node⟩ := whole_and_node whole inside
  have chain := (chains f).1 owns.1
  have own := found.trans (firstFunction?_of_chain below node chain owns.2)
  have below_f : f.tree.Whole grammar := whole_of_chain below chain
  obtain ⟨name, list, children, name_is, list_is⟩ := childNodes_of_function below_f owns.2
  have named : childOf? f .name = some name := by
    simp [childOf?, childrenOf, childrenIn, children, name_is]
  have less := Site.heightOf_lt (List.mem_filter.1 inside).1
  obtain ⟨height, high⟩ : ∃ height, Site.heightOf s.tree = height + 1 := Nat.exists_eq_add_one.2 (by omega)
  have declared : declaredName? s = some name := by
    rw [declaredName?, high, declaredNameIn_eq first chain owns.2]
    exact declaredNameIn_of_chain (by omega) below node chain owns.2 named
  refine ⟨own, ?_⟩
  rw [Function.name?, Function.nameNode?, own, Option.bind_some, named, declaredText?, declared]

theorem declarator?_of_none (whole : s.tree.Whole grammar) (is : s.kind = .functionDefinition)
    (attributes : ∀ a ∈ Attribute.specifiers s, HidesNone a)
    (bounds : ∀ b, OnChain s b → b.kind = .arrayDeclarator → ∀ e ∈ expressions b, HidesNone e)
    (none : ∀ f, ¬Owns s f) : Function.declarator? s = .none := by
  obtain ⟨d, inside, first, chains, found⟩ := declarator?_eq whole is attributes
  obtain ⟨below, node⟩ := whole_and_node whole inside
  have declares : isDeclarator d.kind = true := by
    have own := List.find?_some first
    exact own
  rw [found]
  exact firstFunction?_of_none (Nat.le_refl _) below node declares
    (fun f chain is => none f ⟨(chains f).2 chain, is⟩) fun b chain => bounds b ((chains b).2 chain)

/-- An attribute with an argument. -/
def attributePlan (argument : Plan) : Plan :=
  through [.attrSpecifiers, .attrSpecifier] (word .lAttr "[[" ++
    through [.attrs, .attr] (through [.attrName] (word .ident "a") ++
      through [.argList] (word .lParen "(" ++ through [.arguments, .expression] argument ++
        word .rParen ")")) ++
    word .rBracket "]" ++ word .rBracket "]")

/-- A definition of `g` that declares a function `f` in the type that an argument of its attribute asks the
size of. -/
def attributedPlan : Plan :=
  let int := through [.specifiers] (typePlan (word .primitiveType "int"))
  let field := through [.fields, .fieldDeclaration]
    (int ++ through [.fieldDeclarators, .fieldDeclarator] (functionPlan (spaced .ident "f") parensPlan) ++
      word .semicolon ";")
  let struct := through [.specifiers, .typeSpecifier, .structSpecifier] (word .structKw "struct" ++
    through [.fieldList] (word .lBrace "\x7b" ++ field ++ word .rBrace "\x7d"))
  through [.program, .items, .item, .functionDefinition]
    (attributePlan (through [.sizeofExpr] (word .sizeofKw "sizeof" ++ word .lParen "(" ++ struct ++
        word .rParen ")")) ++
      int ++ functionPlan (spaced .ident "g") parensPlan ++
      through [.compoundStatement] (word .lBrace "\x7b" ++ word .rBrace "\x7d"))

/-- The definition of `g` takes the declarator of `f` for its own, and goes by that name. -/
theorem declarator?_attributed : ∃ (p : Parser) (d : Document), table = .ok p.language.table ∧
    p.parse "[[a(sizeof(struct\x7bint f();\x7d))]]int g()\x7b\x7d" = .ok d ∧ d.diagnostics = [] ∧
    ∃ s ∈ (Site.root d.root).descendants, s.kind = .functionDefinition ∧ hasErrors s = false ∧
      (∃ f, Owns s f ∧ (Function.declarator? s).map Site.range ≠ some f.range) ∧
        Function.name? s = some "f" ∧ declaredText? s = some "g" := by
  obtain ⟨t, built⟩ := exists_table
  have settled : attributedPlan.settled meetings (.ofGrammar grammar) grammar = true := by decide +kernel
  have tokens : (Token.readAll "[[a(sizeof(struct\x7bint f();\x7d))]]int g()\x7b\x7d").map Token.label =
      attributedPlan.labels := by with_unfolding_all decide
  obtain ⟨d, parsed, quiet, root⟩ :=
    exists_parse_of_plan (p := ⟨⟨"metal", t, 0⟩, {}⟩) built settled tokens
  obtain ⟨s, inside, seen⟩ := Site.exists_of_plain root 1 (P := fun x =>
    x.kind = .functionDefinition ∧ hasErrors x = false ∧
      (∃ f ∈ x.childNodes, f.kind = .functionDeclarator ∧
        (Function.declarator? x).map Site.range ≠ some f.range) ∧
      Function.name? x = some "f" ∧ declaredText? x = some "g") (by with_unfolding_all decide)
  simp only [Site.kind_plain, hasErrors_plain, Site.childNodes_plain, List.mem_map,
    exists_exists_and_eq_and, range_declarator?_plain, Site.range_plain, name?_plain,
    declaredText?_plain] at seen
  obtain ⟨kind, sound, ⟨f, below, is, differ⟩, name, declared⟩ := seen
  exact ⟨_, d, built, parsed, quiet, s, inside, kind, sound,
    ⟨f, ⟨⟨f, below, by rw [is]; rfl, .refl⟩, is⟩, differ⟩, name, declared⟩

end ShaderTree.Ast

namespace ShaderTree.Metal

open Ast

/-- Function definitions go by their own declarators. However often a text was changed and parsed again, in
a definition that no repair touched and whose attributes hide no function declarator, the declarator that is
found is the function declarator of the definition's own chain, through pointers, references and arrays, and
the name is the one that the chain leads to. If the chain has none and no bound of its arrays hides one, then
none is found. -/
theorem definitions_find_own {t : Table} (built : table = .ok t) {text : String} {d : Document}
    (parsed : Parsed (fun l => table = .ok l.table) text d) :
    ∀ s ∈ (Site.root d.root).descendants, s.kind = .functionDefinition → hasErrors s = false →
      (∀ a ∈ Attribute.specifiers s, HidesNone a) →
        (∀ f, Owns s f → Function.declarator? s = some f ∧ Function.name? s = declaredText? s) ∧
          ((∀ b, OnChain s b → b.kind = .arrayDeclarator → ∀ e ∈ expressions b, HidesNone e) →
            (∀ f, ¬Owns s f) → Function.declarator? s = none ∧ Function.name? s = none) := by
  intro s inside is sound attributes
  have whole := whole_of_parsed built parsed inside sound
  refine ⟨fun f owns => declarator?_of_owns whole is attributes owns, fun bounds none => ?_⟩
  have nothing := declarator?_of_none whole is attributes bounds none
  refine ⟨nothing, ?_⟩
  rw [Function.name?, Function.nameNode?, nothing]
  rfl

/-- A definition with an attribute that returns a pointer. -/
def pointerPlan : Plan :=
  let int := through [.specifiers] (typePlan (word .primitiveType "int"))
  let array := through [.declarator, .directDeclarator, .arrayDeclarator]
    (through [.directDeclarator, .name] (spaced .ident "x") ++ word .lBracket "[" ++
      through [.expression, .literal] (word .intNumber "2") ++ word .rBracket "]")
  let parameters := word .lParen "(" ++ through [.parameters, .parameter] (int ++ array) ++ word .rParen ")"
  through [.program, .items, .item, .functionDefinition]
    (attributePlan (through [.nameRef, .path] (word .ident "b")) ++
      through [.specifiers] (through [.qualifiers, .qualifier] (spaced .deviceKw "device") ++
        typePlan (spaced .primitiveType "int")) ++
      through [.declarator, .pointerDeclarator]
        (word .star "*" ++ functionPlan (spaced .ident "f") parameters) ++
      through [.compoundStatement] (spaced .lBrace "\x7b" ++ word .rBrace "\x7d"))

/-- The function declarator is found below the pointer, and its name is that of the definition. -/
theorem definitions_find_own_pointer : ∃ (p : Parser) (d : Document), table = .ok p.language.table ∧
    p.parse "[[a(b)]] device int* f(int x[2]) \x7b\x7d" = .ok d ∧ d.diagnostics = [] ∧
    ∃ s ∈ (Site.root d.root).descendants, s.kind = .functionDefinition ∧ hasErrors s = false ∧
      (∀ a ∈ Attribute.specifiers s, HidesNone a) ∧ ∃ f, Owns s f ∧ Function.declarator? s = some f ∧
        Function.name? s = declaredText? s ∧ declaredText? s = some "f" := by
  obtain ⟨t, built⟩ := exists_table
  have settled : pointerPlan.settled meetings (.ofGrammar grammar) grammar = true := by decide +kernel
  have tokens : (Token.readAll "[[a(b)]] device int* f(int x[2]) \x7b\x7d").map Token.label =
      pointerPlan.labels := by with_unfolding_all decide
  obtain ⟨d, parsed, quiet, root⟩ :=
    exists_parse_of_plan (p := ⟨⟨"metal", t, 0⟩, {}⟩) built settled tokens
  obtain ⟨s, inside, seen⟩ := Site.exists_of_plain root 1 (P := fun x =>
    x.kind = .functionDefinition ∧ hasErrors x = false ∧
      (∀ a ∈ Attribute.specifiers x, ∀ c ∈ a.descendants, c.kind ≠ .functionDeclarator) ∧
      (∃ b ∈ x.childNodes, b.kind = .pointerDeclarator ∧ ∃ f ∈ b.childNodes, f.kind = .functionDeclarator) ∧
      declaredText? x = some "f") (by with_unfolding_all decide)
  simp only [Site.kind_plain, hasErrors_plain, Attribute.specifiers, childrenOf, childrenIn_plain,
    Site.descendants_plain, Site.childNodes_plain, List.mem_map, forall_exists_index, and_imp,
    forall_apply_eq_imp_iff₂, exists_exists_and_eq_and, declaredText?_plain] at seen
  obtain ⟨kind, sound, attributes, ⟨b, outer, wraps, f, inner, is⟩, declared⟩ := seen
  have link : Wraps b f := ⟨by rw [wraps]; rfl, inner, by rw [is]; rfl⟩
  have owns : Owns s f := ⟨⟨b, outer, by rw [wraps]; rfl, .single link⟩, is⟩
  obtain ⟨own, name⟩ :=
    (definitions_find_own built (.parse built parsed) s inside kind sound attributes).1 f owns
  exact ⟨_, d, built, parsed, quiet, s, inside, kind, sound, attributes, f, owns, own, name, declared⟩

end ShaderTree.Metal
