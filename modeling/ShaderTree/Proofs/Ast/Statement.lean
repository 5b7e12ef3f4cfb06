import ShaderTree.Proofs.Ast.Expression
import ShaderTree.Proofs.Ast.Marks
import ShaderTree.Proofs.Metal.Plans
import ShaderTree.Proofs.Parser.Bound

/-! What the view of a statement shows. Parts that a form may lack are shown if they are there, and `none`
is shown if they are not; those of a loop header and of the branches of a condition are told apart by the
tokens between them, which stand nowhere else among the parts. -/
namespace ShaderTree.Ast

open Metal Grammar

/-- The symbol, if there is a part for it. -/
def maybe (x : Symbol) (part : Option Site) : List Symbol := part.toList.map fun _ => x

def groupOf (part : Option Site) : List (List Site) := part.toList.map ([·])

/-- What there is to see of a statement. -/
inductive Statement.Shows (s : Site) : Statement → Prop
  | empty {l r : Site} (reads : Reads s .compoundStatement [t .lBrace, t .rBrace] [[l], [r]]) :
      Shows s (.compound true [] (s.descendants.filter fun c => c.kind = .returnStatement))
  | compound {l r : Site} {group items : List Site}
      (reads : Reads s .compoundStatement [t .lBrace, n .statements, t .rBrace] [[l], group, [r]])
      (listed : Listed [] group items) :
      Shows s (.compound true items (s.descendants.filter fun c => c.kind = .returnStatement))
  | declaration {form : List Symbol} {groups : List (List Site)}
      (reads : Reads s .declaration form groups) : Shows s .declaration
  | expression {value : Option Site} {semicolon : Site}
      (reads : Reads s .expressionStatement (maybe (n .expression) value ++ [t .semicolon])
        (groupOf value ++ [[semicolon]])) :
      Shows s (.expression value)
  | ifThen {word l condition r whenTrue : Site}
      (reads : Reads s .ifStatement [t .ifKw, t .lParen, n .expression, t .rParen, n .statement]
        [[word], [l], [condition], [r], [whenTrue]]) :
      Shows s (.ifThen condition whenTrue none)
  | ifElse {word l condition r whenTrue other whenFalse : Site}
      (reads : Reads s .ifStatement
        [t .ifKw, t .lParen, n .expression, t .rParen, n .statement, t .elseKw, n .statement]
        [[word], [l], [condition], [r], [whenTrue], [other], [whenFalse]]) :
      Shows s (.ifThen condition whenTrue whenFalse)
  | whileLoop {word l condition r body : Site}
      (reads : Reads s .whileStatement [t .whileKw, t .lParen, n .expression, t .rParen, n .statement]
        [[word], [l], [condition], [r], [body]]) :
      Shows s (.whileLoop condition body)
  | doLoop {word body word' l condition r semicolon : Site}
      (reads : Reads s .doStatement
        [t .doKw, n .statement, t .whileKw, t .lParen, n .expression, t .rParen, t .semicolon]
        [[word], [body], [word'], [l], [condition], [r], [semicolon]]) :
      Shows s (.doLoop body condition)
  | forLoop {word l init semicolon r body : Site} {condition step : Option Site}
      (reads : Reads s .forStatement
        ([t .forKw, t .lParen, n .forInit] ++ (maybe (n .expression) condition ++ ([t .semicolon] ++
          (maybe (n .expression) step ++ [t .rParen, n .statement]))))
        ([[word], [l], [init]] ++ (groupOf condition ++ ([[semicolon]] ++
          (groupOf step ++ [[r], [body]]))))) :
      Shows s (.forLoop init condition step body)
  | switchOn {word l condition r body : Site}
      (reads : Reads s .switchStatement
        [t .switchKw, t .lParen, n .expression, t .rParen, n .compoundStatement]
        [[word], [l], [condition], [r], [body]]) :
      Shows s (.switchOn condition (body.parts.filter fun c => c.isNode && c.kind = .caseLabel) body)
  | caseLabel {word value colon : Site}
      (reads : Reads s .caseLabel [t .caseKw, n .expression, t .colon] [[word], [value], [colon]]) :
      Shows s (.caseLabel value false)
  | default {word colon : Site} (reads : Reads s .caseLabel [t .defaultKw, t .colon] [[word], [colon]]) :
      Shows s (.caseLabel none true)
  | breakLoop {word semicolon : Site}
      (reads : Reads s .breakStatement [t .breakKw, t .semicolon] [[word], [semicolon]]) :
      Shows s .breakLoop
  | continueLoop {word semicolon : Site}
      (reads : Reads s .continueStatement [t .continueKw, t .semicolon] [[word], [semicolon]]) :
      Shows s .continueLoop
  | returnValue {word semicolon : Site} {value : Option Site}
      (reads : Reads s .returnStatement ([t .returnKw] ++ (maybe (n .expression) value ++ [t .semicolon]))
        ([[word]] ++ (groupOf value ++ [[semicolon]]))) :
      Shows s (.returnValue value)

variable {s : Site} {form : List Symbol} {groups : List (List Site)}

/-- Nodes are parts. -/
theorem filter_parts (cs : List Site) (p : Kind → Bool) :
    (cs.filter fun c => !(c.isLeaf && c.kind.isTrivia)).filter (fun c => c.isNode && p c.kind) =
      cs.filter fun c => c.isNode && p c.kind := by
  rw [List.filter_filter]
  refine List.filter_congr fun c _ => ?_
  cases leaf : c.isLeaf <;> simp [Site.isNode, leaf]

theorem not_mark_of_blank {c : Site} {k : Kind} (text : k.isTrivia = false)
    (blank : (!(c.isLeaf && c.kind.isTrivia)) = false) : (c.isLeaf && c.kind = k) = false := by
  obtain ⟨_, trivia⟩ : c.isLeaf = true ∧ c.kind.isTrivia = true := by simpa using blank
  have other : c.kind ≠ k := by
    rintro rfl
    rw [text] at trivia
    cases trivia
  simp [other]

/-- What a token parts, if it is the first of its kind. -/
theorem splitAtToken_eq {k : Kind} (text : k.isTrivia = false) {front back : List Site} {mark : Site}
    (parts : s.parts = front ++ mark :: back) (leaf : mark.isLeaf = true) (kind : mark.kind = k)
    (first : ∀ c ∈ front, (c.isLeaf && c.kind = k) = false) (p : Kind → Bool) :
    splitAtToken s k p = (front.filter fun c => c.isNode && p c.kind,
      back.filter fun c => c.isNode && p c.kind) := by
  obtain ⟨before, rest, children, rfl, others⟩ := List.filter_eq_append_iff.1 parts
  obtain ⟨blanks, after, rfl, dropped, _, rfl⟩ := List.filter_eq_cons_iff.1 others
  have other : ∀ c ∈ before ++ blanks, (!(c.isLeaf && c.kind = k)) = true := by
    intro c member
    rcases List.mem_append.1 member with early | between
    · cases kept : !(c.isLeaf && c.kind.isTrivia) with
      | true => rw [first c (List.mem_filter.2 ⟨early, kept⟩), Bool.not_false]
      | false => rw [not_mark_of_blank text kept, Bool.not_false]
    · rw [not_mark_of_blank text (Bool.not_eq_true _ ▸ dropped c between), Bool.not_false]
  have stop : (!(mark.isLeaf && mark.kind = k)) = false := by simp [leaf, kind]
  have whole : s.children = (before ++ blanks) ++ mark :: after := by rw [children, List.append_assoc]
  have none : blanks.filter (fun c => c.isNode && p c.kind) = [] := by
    rw [← filter_parts, List.filter_eq_nil_iff.2 dropped, List.filter_nil]
  have own : (mark.isNode && p mark.kind) = false := by rw [Site.isNode, leaf]; rfl
  unfold splitAtToken
  dsimp only
  rw [whole, List.takeWhile_append_of_pos other, List.dropWhile_append_of_pos other, List.takeWhile_cons,
    List.dropWhile_cons, stop]
  simp only [Bool.false_eq_true, if_false, List.append_nil, List.filter_append, List.filter_cons, own, none,
    filter_parts]

theorem not_expression_of_statement {k : Kind} (is : isStatement k = true) : isExpression k = false := by
  cases k <;> first | rfl | cases is

theorem not_statement_of_expression {k : Kind} (is : isExpression k = true) : isStatement k = false := by
  cases k <;> first | rfl | cases is

/-- If there is no such token, nothing is behind it. -/
theorem splitAtToken_eq_of_none {k : Kind} (text : k.isTrivia = false)
    (none : ∀ c ∈ s.parts, (c.isLeaf && c.kind = k) = false) (p : Kind → Bool) :
    splitAtToken s k p = (s.parts.filter fun c => c.isNode && p c.kind, []) := by
  have other : ∀ c ∈ s.children, (!(c.isLeaf && c.kind = k)) = true := by
    intro c member
    cases kept : !(c.isLeaf && c.kind.isTrivia) with
    | true => rw [none c (List.mem_filter.2 ⟨member, kept⟩), Bool.not_false]
    | false => rw [not_mark_of_blank text kept, Bool.not_false]
  unfold splitAtToken
  dsimp only
  rw [List.takeWhile_eq_self_iff.2 other, List.dropWhile_eq_nil_iff.2 other, Site.parts, filter_parts,
    List.filter_nil]

/-- An expression that may be missing is there or not. -/
theorem exists_optional {there : Bool} {xs : List Symbol}
    (divides : grammar.Divides ((if there then [n .expression] else []) ++ xs) groups) :
    ∃ part rest, (if there then [n .expression] else []) = maybe (n .expression) part ∧
      groups = groupOf part ++ rest ∧ (∀ c ∈ part, c.isLeaf = false ∧ isExpression c.kind = true) ∧
        grammar.Divides xs rest := by
  cases there with
  | false => exact ⟨none, groups, rfl, rfl, nofun, divides⟩
  | true =>
    obtain ⟨_, rest, rfl, own, others⟩ := divides_cons.1 divides
    obtain ⟨c, rfl, is⟩ := expression_of_stands own
    exact ⟨some c, rest, rfl, rfl, by simpa using is, others⟩

namespace Statement

set_option maxRecDepth 10000 in
theorem exists_compound (reads : Reads s .compoundStatement form groups) :
    ∃ v, view? s = some v ∧ v.Shows s := by
  have forms : Phrase.compoundStatement.forms =
      [[t .lBrace, t .rBrace], [t .lBrace, n .statements, t .rBrace]] := by decide
  have kind : s.kind = .compoundStatement := reads.kind_eq rfl
  have opens := token?_eq (s := s) (k := .lBrace) rfl
  have closes := token?_eq (s := s) (k := .rBrace) rfl
  have divides := reads.divides
  rcases reads.eq_or_eq_of_forms forms with rfl | rfl <;> simp only [divides_cons, divides_nil] at divides
  · obtain ⟨_, _, rfl, left, _, _, rfl, right, rfl⟩ := divides
    obtain ⟨l, rfl, l_leaf, l_is⟩ := stands_terminal.1 left
    obtain ⟨r, rfl, r_leaf, r_is⟩ := stands_terminal.1 right
    have parts : s.parts = [l, r] := reads.parts
    refine ⟨_, ?_, .empty reads⟩
    simp [view?, hasToken, Ast.statements, childrenIn_eq, Site.isNode, *]
  · obtain ⟨_, _, rfl, left, group, _, rfl, inner, _, _, rfl, right, rfl⟩ := divides
    obtain ⟨l, rfl, l_leaf, l_is⟩ := stands_terminal.1 left
    obtain ⟨r, rfl, r_leaf, r_is⟩ := stands_terminal.1 right
    obtain ⟨items, listed, each⟩ := statements_of_stands inner
    have parts : s.parts = l :: (group ++ [r]) := by simpa using reads.parts
    have found : Ast.statements s = items := by
      have within := filter_listed listed (fun c => c.isNode && isStatement c.kind)
        (fun c member => by simp [Site.isNode, each c member])
        (fun m leaf _ => by simp [Site.isNode, leaf])
      rw [Ast.statements, childrenIn_eq, parts, List.filter_cons, List.filter_append, within]
      simp [Site.isNode, l_leaf, r_leaf]
    refine ⟨_, ?_, .compound reads listed⟩
    simp [view?, hasToken, *]

set_option maxRecDepth 10000 in
theorem exists_expression (reads : Reads s .expressionStatement form groups) :
    ∃ v, view? s = some v ∧ v.Shows s := by
  have forms : ∀ form ∈ Phrase.expressionStatement.forms, ∃ there ∈ [false, true],
      form = (if there then [n .expression] else []) ++ [t .semicolon] := by decide
  obtain ⟨there, _, rfl⟩ := forms form reads.known
  have kind : s.kind = .expressionStatement := reads.kind_eq rfl
  obtain ⟨value, _, same, rfl, is, rest⟩ := exists_optional reads.divides
  simp only [divides_cons, divides_nil] at rest
  obtain ⟨_, _, rfl, mark, rfl⟩ := rest
  obtain ⟨m, rfl, m_leaf, _⟩ := stands_terminal.1 mark
  rw [same] at reads
  have parts : s.parts = value.toList ++ [m] := by cases value <;> exact reads.parts
  refine ⟨_, ?_, .expression reads⟩
  cases value <;> simp_all [view?, expression?, expressions, childrenIn_eq, Site.isNode]

set_option maxRecDepth 10000 in
theorem exists_if (reads : Reads s .ifStatement form groups) : ∃ v, view? s = some v ∧ v.Shows s := by
  have forms : Phrase.ifStatement.forms =
      [[t .ifKw, t .lParen, n .expression, t .rParen, n .statement],
        [t .ifKw, t .lParen, n .expression, t .rParen, n .statement, t .elseKw, n .statement]] := by decide
  have kind : s.kind = .ifStatement := reads.kind_eq rfl
  have divides := reads.divides
  rcases reads.eq_or_eq_of_forms forms with rfl | rfl <;> simp only [divides_cons, divides_nil] at divides
  · obtain ⟨_, _, rfl, word, _, _, rfl, left, _, _, rfl, inner, _, _, rfl, right, _, _, rfl, branch,
      rfl⟩ := divides
    obtain ⟨w, rfl, w_leaf, w_is⟩ := stands_terminal.1 word
    obtain ⟨l, rfl, l_leaf, l_is⟩ := stands_terminal.1 left
    obtain ⟨c, rfl, c_node, c_is⟩ := expression_of_stands inner
    obtain ⟨r, rfl, r_leaf, r_is⟩ := stands_terminal.1 right
    obtain ⟨a, rfl, a_node, a_is⟩ := statement_of_stands branch
    have parts : s.parts = [w, l, c, r, a] := reads.parts
    have split := splitAtToken_eq_of_none (s := s) (k := .elseKw) rfl (by simp [*]) isStatement
    have a_other := not_expression_of_statement a_is
    have c_other := not_statement_of_expression c_is
    refine ⟨_, ?_, .ifThen reads⟩
    simp [view?, expression?, expressions, childrenIn_eq, Site.isNode, *]
  · obtain ⟨_, _, rfl, word, _, _, rfl, left, _, _, rfl, inner, _, _, rfl, right, _, _, rfl, branch,
      _, _, rfl, other, _, _, rfl, branch', rfl⟩ := divides
    obtain ⟨w, rfl, w_leaf, w_is⟩ := stands_terminal.1 word
    obtain ⟨l, rfl, l_leaf, l_is⟩ := stands_terminal.1 left
    obtain ⟨c, rfl, c_node, c_is⟩ := expression_of_stands inner
    obtain ⟨r, rfl, r_leaf, r_is⟩ := stands_terminal.1 right
    obtain ⟨a, rfl, a_node, a_is⟩ := statement_of_stands branch
    obtain ⟨e, rfl, e_leaf, e_is⟩ := stands_terminal.1 other
    obtain ⟨b, rfl, b_node, b_is⟩ := statement_of_stands branch'
    have parts : s.parts = [w, l, c, r, a] ++ e :: [b] := reads.parts
    have split := splitAtToken_eq (k := .elseKw) rfl parts e_leaf e_is (by simp [*]) isStatement
    have a_other := not_expression_of_statement a_is
    have b_other := not_expression_of_statement b_is
    have c_other := not_statement_of_expression c_is
    refine ⟨_, ?_, .ifElse reads⟩
    simp [view?, expression?, expressions, childrenIn_eq, Site.isNode, *]

set_option maxRecDepth 10000 in
theorem exists_while (reads : Reads s .whileStatement form groups) : ∃ v, view? s = some v ∧ v.Shows s := by
  have forms : Phrase.whileStatement.forms =
      [[t .whileKw, t .lParen, n .expression, t .rParen, n .statement]] := by decide
  obtain rfl := reads.eq_of_forms forms
  have kind : s.kind = .whileStatement := reads.kind_eq rfl
  have divides := reads.divides
  simp only [divides_cons, divides_nil] at divides
  obtain ⟨_, _, rfl, word, _, _, rfl, left, _, _, rfl, inner, _, _, rfl, right, _, _, rfl, branch, rfl⟩ :=
    divides
  obtain ⟨w, rfl, w_leaf, _⟩ := stands_terminal.1 word
  obtain ⟨l, rfl, l_leaf, _⟩ := stands_terminal.1 left
  obtain ⟨c, rfl, c_node, c_is⟩ := expression_of_stands inner
  obtain ⟨r, rfl, r_leaf, _⟩ := stands_terminal.1 right
  obtain ⟨a, rfl, a_node, a_is⟩ := statement_of_stands branch
  have parts : s.parts = [w, l, c, r, a] := reads.parts
  have c_other := not_statement_of_expression c_is
  refine ⟨_, ?_, .whileLoop reads⟩
  simp [view?, expression?, expressions, statement?, Ast.statements, childrenIn_eq, Site.isNode, *]

set_option maxRecDepth 10000 in
theorem exists_do (reads : Reads s .doStatement form groups) : ∃ v, view? s = some v ∧ v.Shows s := by
  have forms : Phrase.doStatement.forms =
      [[t .doKw, n .statement, t .whileKw, t .lParen, n .expression, t .rParen, t .semicolon]] := by decide
  obtain rfl := reads.eq_of_forms forms
  have kind : s.kind = .doStatement := reads.kind_eq rfl
  have divides := reads.divides
  simp only [divides_cons, divides_nil] at divides
  obtain ⟨_, _, rfl, word, _, _, rfl, branch, _, _, rfl, word', _, _, rfl, left, _, _, rfl, inner,
    _, _, rfl, right, _, _, rfl, mark, rfl⟩ := divides
  obtain ⟨w, rfl, w_leaf, _⟩ := stands_terminal.1 word
  obtain ⟨a, rfl, a_node, a_is⟩ := statement_of_stands branch
  obtain ⟨v, rfl, v_leaf, _⟩ := stands_terminal.1 word'
  obtain ⟨l, rfl, l_leaf, _⟩ := stands_terminal.1 left
  obtain ⟨c, rfl, c_node, c_is⟩ := expression_of_stands inner
  obtain ⟨r, rfl, r_leaf, _⟩ := stands_terminal.1 right
  obtain ⟨m, rfl, m_leaf, _⟩ := stands_terminal.1 mark
  have parts : s.parts = [w, a, v, l, c, r, m] := reads.parts
  have a_other := not_expression_of_statement a_is
  refine ⟨_, ?_, .doLoop reads⟩
  simp [view?, expression?, expressions, statement?, Ast.statements, childrenIn_eq, Site.isNode, *]

set_option maxRecDepth 10000 in
theorem exists_for (reads : Reads s .forStatement form groups) : ∃ v, view? s = some v ∧ v.Shows s := by
  have forms : ∀ form ∈ Phrase.forStatement.forms, ∃ a ∈ [false, true], ∃ b ∈ [false, true],
      form = t .forKw :: t .lParen :: n .forInit :: ((if a then [n .expression] else []) ++
        t .semicolon :: ((if b then [n .expression] else []) ++ [t .rParen, n .statement])) := by decide
  obtain ⟨a, _, b, _, rfl⟩ := forms form reads.known
  have kind : s.kind = .forStatement := reads.kind_eq rfl
  have divides := reads.divides
  simp only [divides_cons] at divides
  obtain ⟨_, _, rfl, word, _, _, rfl, left, _, _, rfl, start, rest⟩ := divides
  obtain ⟨condition, _, same, rfl, condition_is, rest⟩ := exists_optional rest
  obtain ⟨_, _, rfl, mark, rest⟩ := divides_cons.1 rest
  obtain ⟨step, _, same', rfl, step_is, rest⟩ := exists_optional rest
  simp only [divides_cons, divides_nil] at rest
  obtain ⟨_, _, rfl, right, _, _, rfl, last, rfl⟩ := rest
  obtain ⟨w, rfl, w_leaf, w_is⟩ := stands_terminal.1 word
  obtain ⟨l, rfl, l_leaf, l_is⟩ := stands_terminal.1 left
  obtain ⟨init, rfl, init_node, init_is⟩ := init_of_stands start
  obtain ⟨m, rfl, m_leaf, m_is⟩ := stands_terminal.1 mark
  obtain ⟨r, rfl, r_leaf, r_is⟩ := stands_terminal.1 right
  obtain ⟨body, rfl, body_node, body_is⟩ := statement_of_stands last
  rw [same, same'] at reads
  have parts : s.parts = w :: l :: init :: (condition.toList ++ m :: (step.toList ++ [r, body])) := by
    cases condition <;> cases step <;> exact reads.parts
  have condition_other : ∀ c ∈ condition, isStatement c.kind = false :=
    fun c member => not_statement_of_expression (condition_is c member).2
  have step_other : ∀ c ∈ step, isStatement c.kind = false :=
    fun c member => not_statement_of_expression (step_is c member).2
  have init_other := not_expression_of_statement init_is
  have body_other := not_expression_of_statement body_is
  -- the first part carries a semicolon of its own inside, so the one between the others is the first
  have header : splitAtToken s .semicolon isExpression = (condition.toList, step.toList) := by
    have front : ∀ c ∈ w :: l :: init :: condition.toList, (c.isLeaf && c.kind = .semicolon) = false := by
      cases condition <;> simp_all
    have parts' : s.parts = (w :: l :: init :: condition.toList) ++ m :: (step.toList ++ [r, body]) := parts
    rw [splitAtToken_eq rfl parts' m_leaf m_is front]
    cases condition <;> cases step <;> simp_all [Site.isNode]
  have around : splitAtToken s .rParen isStatement = ([init], [body]) := by
    have front : ∀ c ∈ w :: l :: init :: (condition.toList ++ m :: step.toList),
        (c.isLeaf && c.kind = .rParen) = false := by
      cases condition <;> cases step <;> simp_all
    have parts' : s.parts = w :: l :: init :: (condition.toList ++ m :: step.toList) ++ r :: [body] := by
      simpa using parts
    rw [splitAtToken_eq rfl parts' r_leaf r_is front]
    cases condition <;> cases step <;> simp_all [Site.isNode]
  refine ⟨_, ?_, .forLoop reads⟩
  cases condition <;> cases step <;> simp [view?, kind, header, around]

set_option maxRecDepth 10000 in
theorem exists_switch (reads : Reads s .switchStatement form groups) :
    ∃ v, view? s = some v ∧ v.Shows s := by
  have forms : Phrase.switchStatement.forms =
      [[t .switchKw, t .lParen, n .expression, t .rParen, n .compoundStatement]] := by decide
  obtain rfl := reads.eq_of_forms forms
  have kind : s.kind = .switchStatement := reads.kind_eq rfl
  have divides := reads.divides
  simp only [divides_cons, divides_nil] at divides
  obtain ⟨_, _, rfl, word, _, _, rfl, left, _, _, rfl, inner, _, _, rfl, right, _, _, rfl, block, rfl⟩ :=
    divides
  obtain ⟨w, rfl, w_leaf, _⟩ := stands_terminal.1 word
  obtain ⟨l, rfl, l_leaf, _⟩ := stands_terminal.1 left
  obtain ⟨c, rfl, c_node, c_is⟩ := expression_of_stands inner
  obtain ⟨r, rfl, r_leaf, _⟩ := stands_terminal.1 right
  obtain ⟨body, rfl, body_node, body_is⟩ := node_of_stands .compoundStatement rfl block
  have parts : s.parts = [w, l, c, r, body] := reads.parts
  have plain : isExpression .compoundStatement = false := rfl
  have other : c.kind ≠ .compoundStatement := by
    intro is
    rw [is] at c_is
    cases c_is
  have value : expression? s = some c := by
    simp [expression?, expressions, childrenIn_eq, Site.isNode, *]
  have block : childOf? s .compoundStatement = some body := by
    simp [childOf?, childrenOf, childrenIn_eq, Site.isNode, *]
  refine ⟨_, ?_, .switchOn reads⟩
  simp only [view?, kind, value, block, Option.map_some, Option.getD_some, childrenOf, childrenIn_eq]

set_option maxRecDepth 10000 in
theorem exists_case (reads : Reads s .caseLabel form groups) : ∃ v, view? s = some v ∧ v.Shows s := by
  have forms : Phrase.caseLabel.forms =
      [[t .caseKw, n .expression, t .colon], [t .defaultKw, t .colon]] := by decide
  have kind : s.kind = .caseLabel := reads.kind_eq rfl
  have default := token?_eq (s := s) (k := .defaultKw) rfl
  have divides := reads.divides
  rcases reads.eq_or_eq_of_forms forms with rfl | rfl <;> simp only [divides_cons, divides_nil] at divides
  · obtain ⟨_, _, rfl, word, _, _, rfl, inner, _, _, rfl, mark, rfl⟩ := divides
    obtain ⟨w, rfl, w_leaf, w_is⟩ := stands_terminal.1 word
    obtain ⟨c, rfl, c_node, c_is⟩ := expression_of_stands inner
    obtain ⟨m, rfl, m_leaf, m_is⟩ := stands_terminal.1 mark
    have parts : s.parts = [w, c, m] := reads.parts
    refine ⟨_, ?_, .caseLabel reads⟩
    simp [view?, expression?, expressions, childrenIn_eq, hasToken, Site.isNode, *]
  · obtain ⟨_, _, rfl, word, _, _, rfl, mark, rfl⟩ := divides
    obtain ⟨w, rfl, w_leaf, w_is⟩ := stands_terminal.1 word
    obtain ⟨m, rfl, m_leaf, m_is⟩ := stands_terminal.1 mark
    have parts : s.parts = [w, m] := reads.parts
    refine ⟨_, ?_, .default reads⟩
    simp [view?, expression?, expressions, childrenIn_eq, hasToken, Site.isNode, *]

set_option maxRecDepth 10000 in
theorem exists_break (reads : Reads s .breakStatement form groups) : ∃ v, view? s = some v ∧ v.Shows s := by
  have forms : Phrase.breakStatement.forms = [[t .breakKw, t .semicolon]] := by decide
  obtain rfl := reads.eq_of_forms forms
  have kind : s.kind = .breakStatement := reads.kind_eq rfl
  have divides := reads.divides
  simp only [divides_cons, divides_nil] at divides
  obtain ⟨_, _, rfl, word, _, _, rfl, mark, rfl⟩ := divides
  obtain ⟨w, rfl, _⟩ := stands_terminal.1 word
  obtain ⟨m, rfl, _⟩ := stands_terminal.1 mark
  exact ⟨_, by simp only [view?, kind], .breakLoop reads⟩

set_option maxRecDepth 10000 in
theorem exists_continue (reads : Reads s .continueStatement form groups) :
    ∃ v, view? s = some v ∧ v.Shows s := by
  have forms : Phrase.continueStatement.forms = [[t .continueKw, t .semicolon]] := by decide
  obtain rfl := reads.eq_of_forms forms
  have kind : s.kind = .continueStatement := reads.kind_eq rfl
  have divides := reads.divides
  simp only [divides_cons, divides_nil] at divides
  obtain ⟨_, _, rfl, word, _, _, rfl, mark, rfl⟩ := divides
  obtain ⟨w, rfl, _⟩ := stands_terminal.1 word
  obtain ⟨m, rfl, _⟩ := stands_terminal.1 mark
  exact ⟨_, by simp only [view?, kind], .continueLoop reads⟩

set_option maxRecDepth 10000 in
theorem exists_return (reads : Reads s .returnStatement form groups) : ∃ v, view? s = some v ∧ v.Shows s := by
  have forms : ∀ form ∈ Phrase.returnStatement.forms, ∃ there ∈ [false, true],
      form = t .returnKw :: ((if there then [n .expression] else []) ++ [t .semicolon]) := by decide
  obtain ⟨there, _, rfl⟩ := forms form reads.known
  have kind : s.kind = .returnStatement := reads.kind_eq rfl
  obtain ⟨_, _, rfl, word, rest⟩ := divides_cons.1 reads.divides
  obtain ⟨value, _, same, rfl, is, rest⟩ := exists_optional rest
  simp only [divides_cons, divides_nil] at rest
  obtain ⟨_, _, rfl, mark, rfl⟩ := rest
  obtain ⟨w, rfl, w_leaf, _⟩ := stands_terminal.1 word
  obtain ⟨m, rfl, m_leaf, _⟩ := stands_terminal.1 mark
  rw [same] at reads
  have parts : s.parts = w :: (value.toList ++ [m]) := by cases value <;> exact reads.parts
  refine ⟨_, ?_, .returnValue reads⟩
  cases value <;> simp_all [view?, expression?, expressions, childrenIn_eq, Site.isNode]

end Statement

theorem isStatement_iff {k : Kind} : isStatement k = true ↔
    k ∈ [Kind.compoundStatement, .declaration, .expressionStatement, .ifStatement, .whileStatement,
      .doStatement, .forStatement, .switchStatement, .caseLabel, .breakStatement, .continueStatement,
      .returnStatement] := by
  cases k <;> decide

/-- Every statement without repairs has a view, and it shows the parts of the form that it has. -/
theorem Statement.exists_view (whole : s.tree.Whole grammar) (is : isStatement s.kind = true) :
    ∃ v, view? s = some v ∧ v.Shows s := by
  have reads (phrase : Phrase) (kind : phrase.nonterminal.node? = some s.kind) :=
    exists_reads phrase whole kind
  simp only [isStatement_iff, List.mem_cons, List.not_mem_nil, or_false] at is
  rcases is with is | is | is | is | is | is | is | is | is | is | is | is
  · obtain ⟨form, groups, reads⟩ := reads .compoundStatement (is ▸ rfl)
    exact exists_compound reads
  · obtain ⟨form, groups, reads⟩ := reads .declaration (is ▸ rfl)
    exact ⟨_, by simp only [view?, is], .declaration reads⟩
  · obtain ⟨form, groups, reads⟩ := reads .expressionStatement (is ▸ rfl)
    exact exists_expression reads
  · obtain ⟨form, groups, reads⟩ := reads .ifStatement (is ▸ rfl)
    exact exists_if reads
  · obtain ⟨form, groups, reads⟩ := reads .whileStatement (is ▸ rfl)
    exact exists_while reads
  · obtain ⟨form, groups, reads⟩ := reads .doStatement (is ▸ rfl)
    exact exists_do reads
  · obtain ⟨form, groups, reads⟩ := reads .forStatement (is ▸ rfl)
    exact exists_for reads
  · obtain ⟨form, groups, reads⟩ := reads .switchStatement (is ▸ rfl)
    exact exists_switch reads
  · obtain ⟨form, groups, reads⟩ := reads .caseLabel (is ▸ rfl)
    exact exists_case reads
  · obtain ⟨form, groups, reads⟩ := reads .breakStatement (is ▸ rfl)
    exact exists_break reads
  · obtain ⟨form, groups, reads⟩ := reads .continueStatement (is ▸ rfl)
    exact exists_continue reads
  · obtain ⟨form, groups, reads⟩ := reads .returnStatement (is ▸ rfl)
    exact exists_return reads

end ShaderTree.Ast

namespace ShaderTree.Metal

open Ast

/-- Views agree with the grammar. However often a text was changed and parsed again, each expression and
each statement of its tree that no repair touched has a view, and the view shows the parts of the one form
of its phrase that the node has, in their places: operands, operators and types, names and arguments, the
parts of a loop header and the branches of a condition, and `none` for what the form lacks. -/
theorem views_show {t : Table} (built : table = .ok t) {text : String} {d : Document}
    (parsed : Parsed (fun l => table = .ok l.table) text d) :
    ∀ s ∈ (Site.root d.root).descendants, hasErrors s = false →
      (isExpression s.kind = true → ∃ e, Expression.view? s = some e ∧ e.Shows s) ∧
        (isStatement s.kind = true → ∃ v, Statement.view? s = some v ∧ v.Shows s) := by
  intro s inside sound
  have whole := whole_of_parsed built parsed inside sound
  exact ⟨Expression.exists_view whole, Statement.exists_view whole⟩

/-- A loop without condition and step, around a condition with two branches. -/
def loopPlan : Plan :=
  let nameRef (name : Plan) := through [.expression, .nameRef, .path] name
  let shift := through [.expression, .binaryExpr] (nameRef (word .ident "a") ++ spaced .gtJoint ">" ++
    word .gt ">" ++ through [.expression, .literal] (spaced .intNumber "1"))
  let cast := through [.expression, .castExpr] (spaced .lParen "(" ++
    through [.builtinType] (word .primitiveType "int") ++ word .rParen ")" ++ nameRef (word .ident "c"))
  let assignment := through [.expression, .assignmentExpr]
    (nameRef (spaced .ident "b") ++ spaced .eq "=" ++ cast)
  let branches := through [.statement, .ifStatement] (spaced .ifKw "if" ++ spaced .lParen "(" ++ shift ++
    word .rParen ")" ++ through [.statement, .expressionStatement] (assignment ++ word .semicolon ";") ++
    spaced .elseKw "else" ++
    through [.statement, .returnStatement] (spaced .returnKw "return" ++ word .semicolon ";"))
  let loop := through [.statements, .statement, .forStatement] (spaced .forKw "for" ++ spaced .lParen "(" ++
    through [.forInit, .expressionStatement] (word .semicolon ";") ++ word .semicolon ";" ++
    word .rParen ")" ++ branches)
  through [.program, .items, .item, .functionDefinition]
    (through [.specifiers] (typePlan (word .primitiveType "void")) ++
      functionPlan (spaced .ident "f") parensPlan ++
      through [.compoundStatement] (spaced .lBrace "\x7b" ++ loop ++ spaced .rBrace "\x7d"))

theorem views_show_loop : ∃ (p : Parser) (d : Document), table = .ok p.language.table ∧
    p.parse "void f() \x7b for (;;) if (a >> 1) b = (int)c; else return; \x7d" = .ok d ∧
    d.diagnostics = [] ∧
    (∃ s ∈ (Site.root d.root).descendants, ∃ init body,
      Statement.view? s = some (.forLoop (some init) none none (some body)) ∧
        (Statement.forLoop init none none body).Shows s ∧ init.kind = .expressionStatement ∧
          body.kind = .ifStatement) ∧
    ∃ s ∈ (Site.root d.root).descendants, ∃ lhs rhs,
      Expression.view? s = some (.binary (some .shiftRight) (some lhs) (some rhs)) ∧
        (Expression.binary (some .shiftRight) lhs rhs).Shows s ∧ lhs.kind = .nameRef ∧
          rhs.kind = .literal := by
  obtain ⟨t, built⟩ := exists_table
  have settled : loopPlan.settled meetings (.ofGrammar grammar) grammar = true := by decide +kernel
  have tokens : (Token.readAll "void f() \x7b for (;;) if (a >> 1) b = (int)c; else return; \x7d").map
      Token.label = loopPlan.labels := by with_unfolding_all decide
  obtain ⟨d, parsed, quiet, root⟩ :=
    exists_parse_of_plan (p := ⟨⟨"metal", t, 0⟩, {}⟩) built settled tokens
  have views := views_show built (.parse built parsed)
  refine ⟨_, d, built, parsed, quiet, ?_, ?_⟩
  · obtain ⟨s, inside, seen⟩ := Site.exists_of_plain root 7 (P := fun x =>
      x.kind = .forStatement ∧ hasErrors x = false ∧
        (splitAtToken x .rParen isStatement).1.map (·.kind) = [.expressionStatement] ∧
        (splitAtToken x .rParen isStatement).2.map (·.kind) = [.ifStatement] ∧
        (splitAtToken x .semicolon isExpression).1 = [] ∧
        (splitAtToken x .semicolon isExpression).2 = []) (by with_unfolding_all decide)
    simp only [Site.kind_plain, hasErrors_plain, splitAtToken_plain, List.map_map, Site.kind_comp_plain,
      List.map_eq_nil_iff, List.map_eq_singleton_iff] at seen
    obtain ⟨kind, sound, ⟨init, header, first⟩, ⟨body, footer, last⟩, condition, step⟩ := seen
    have statement : isStatement s.kind = true := by rw [kind]; rfl
    obtain ⟨v, view, shows⟩ := (views s inside sound).2 statement
    have own : Statement.view? s = some (.forLoop (some init) none none (some body)) := by
      simp only [Statement.view?, kind, header, footer, condition, step, List.head?_cons, List.head?_nil]
    obtain rfl := Option.some.inj (own.symm.trans view)
    exact ⟨s, inside, init, body, own, shows, first, last⟩
  · obtain ⟨s, inside, seen⟩ := Site.exists_of_plain root 10 (P := fun x =>
      x.kind = .binaryExpr ∧ hasErrors x = false ∧ firstTokenKind? x = some .gtJoint ∧
        (expressions x).map (·.kind) = [.nameRef, .literal]) (by with_unfolding_all decide)
    simp only [Site.kind_plain, hasErrors_plain, firstTokenKind?_plain, expressions, childrenIn_plain,
      List.map_map, Site.kind_comp_plain, List.map_eq_cons_iff, List.map_eq_nil_iff] at seen
    obtain ⟨kind, sound, sign, lhs, _, operands, first, rhs, _, rfl, last, rfl⟩ := seen
    have expression : isExpression s.kind = true := by rw [kind]; rfl
    obtain ⟨v, view, shows⟩ := (views s inside sound).1 expression
    have own : Expression.view? s = some (.binary (some .shiftRight) (some lhs) (some rhs)) := by
      simp [Expression.view?, kind, sign, Expression.operand?, expressions, operands, BinaryOp.ofKind?]
    obtain rfl := Option.some.inj (own.symm.trans view)
    exact ⟨s, inside, lhs, rhs, own, shows, first, last⟩

end ShaderTree.Metal
