import ShaderTree.Proofs.Ast.Phrases

/-! What the view of an expression shows: of each form that the grammar has for expressions, which parts
are the operands, the operator, the type, the arguments and the name. The view looks for parts by class and
order; that it finds those of the form rests on no form having two of a class but in the order shown. -/
namespace ShaderTree.Ast

open Metal Grammar

/-- The tokens that an operator is written with. -/
def BinaryOp.signs : BinaryOp → List Kind
  | .logicalOr => [.pipePipe]
  | .logicalAnd => [.ampAmp]
  | .bitOr => [.pipe]
  | .bitXor => [.caret]
  | .bitAnd => [.amp]
  | .equal => [.eqEq]
  | .notEqual => [.bangEq]
  | .less => [.lt]
  | .greater => [.gt]
  | .lessEqual => [.ltEq]
  | .greaterEqual => [.gtEq]
  | .shiftLeft => [.shl]
  | .shiftRight => [.gtJoint, .gt]
  | .add => [.plus]
  | .subtract => [.minus]
  | .multiply => [.star]
  | .divide => [.slash]
  | .remainder => [.percent]

/-- The first token alone tells the operator. -/
theorem BinaryOp.exists_signs (op : BinaryOp) :
    ∃ first others, op.signs = first :: others ∧ ofKind? first = some op := by
  cases op <;> exact ⟨_, _, rfl, rfl⟩

/-- The arguments in a list of arguments. -/
inductive ArgumentsOf (list : Site) : List Site → Prop
  | none {l r : Site} (reads : Reads list .argList [t .lParen, t .rParen] [[l], [r]]) : ArgumentsOf list []
  | some {l r : Site} {group items : List Site}
      (reads : Reads list .argList [t .lParen, n .arguments, t .rParen] [[l], group, [r]])
      (listed : Listed [.comma] group items) : ArgumentsOf list items

/-- A type and the qualifiers in front of it. -/
structure Qualifies (qualifiers : List Site) (type : Site) : Prop where
  tokens : ∀ q ∈ qualifiers, q.isLeaf = true
  node : type.isLeaf = false
  isType : isType type.kind = true

/-- What there is to see of an expression. -/
inductive Expression.Shows (s : Site) : Expression → Prop
  | assignment {op : Kind} {lhs sign rhs : Site}
      (reads : Reads s .assignmentExpr [n .expression, t op, n .expression] [[lhs], [sign], [rhs]]) :
      Shows s (.assignment op lhs rhs)
  | conditional {condition question whenTrue colon whenFalse : Site}
      (reads : Reads s .conditionalExpr
        [n .expression, t .question, n .expression, t .colon, n .expression]
        [[condition], [question], [whenTrue], [colon], [whenFalse]]) :
      Shows s (.conditional condition whenTrue whenFalse)
  | binary {op : BinaryOp} {lhs rhs : Site} {signs : List Site}
      (reads : Reads s .binaryExpr (n .expression :: (op.signs.map t ++ [n .expression]))
        ([lhs] :: (signs.map ([·]) ++ [[rhs]]))) :
      Shows s (.binary op lhs rhs)
  | unary {op : Kind} {sign operand : Site}
      (reads : Reads s .unaryExpr [t op, n .expression] [[sign], [operand]]) :
      Shows s (.unary op operand)
  | postfixed {op : Kind} {operand sign : Site}
      (reads : Reads s .postfixExpr [n .expression, t op] [[operand], [sign]]) :
      Shows s (.postfixed op operand)
  | bracketCast {l type r operand : Site}
      (reads : Reads s .castExpr [t .lParen, n .builtinType, t .rParen, n .expression]
        [[l], [type], [r], [operand]]) :
      Shows s (.cast none type operand)
  | keywordCast {keyword : Kind} {word lt gt l operand r type : Site} {qualifiers : List Site}
      (reads : Reads s .castExpr
        [t keyword, t .lt, n .specifiers, t .gt, t .lParen, n .expression, t .rParen]
        [[word], [lt], qualifiers ++ [type], [gt], [l], [operand], [r]])
      (qualifies : Qualifies qualifiers type) :
      Shows s (.cast keyword type operand)
  | call {callee list : Site} {arguments : List Site}
      (reads : Reads s .callExpr [n .expression, n .argList] [[callee], [list]])
      (lists : ArgumentsOf list arguments) :
      Shows s (.call callee arguments)
  | construct {type list : Site} {arguments : List Site}
      (reads : Reads s .constructorExpr [n .builtinType, n .argList] [[type], [list]])
      (lists : ArgumentsOf list arguments) :
      Shows s (.construct type arguments)
  | index {base l inner r : Site}
      (reads : Reads s .indexExpr [n .expression, t .lBracket, n .expression, t .rBracket]
        [[base], [l], [inner], [r]]) :
      Shows s (.index base inner)
  | dot {base sign name : Site}
      (reads : Reads s .fieldExpr [n .expression, t .dot, t .ident] [[base], [sign], [name]]) :
      Shows s (.field base false name.text)
  | arrow {base sign name : Site}
      (reads : Reads s .fieldExpr [n .expression, t .arrow, t .ident] [[base], [sign], [name]]) :
      Shows s (.field base true name.text)
  | paren {l inner r : Site}
      (reads : Reads s .parenExpr [t .lParen, n .expression, t .rParen] [[l], [inner], [r]]) :
      Shows s (.paren inner)
  | sizeOf {word l type r : Site} {qualifiers : List Site}
      (reads : Reads s .sizeofExpr [t .sizeofKw, t .lParen, n .specifiers, t .rParen]
        [[word], [l], qualifiers ++ [type], [r]])
      (qualifies : Qualifies qualifiers type) :
      Shows s (.sizeOf type)
  | literal {kind : LiteralKind} {token : Site}
      (reads : Reads s .literal [t token.kind] [[token]])
      (means : LiteralKind.ofKind? token.kind = kind) :
      Shows s (.literal kind token)
  | name {group words : List Site} (reads : Reads s .nameRef [n .path] [group])
      (listed : Listed [.colonColon] group words) :
      Shows s (.name (words.map (·.text)))

variable {s list type : Site} {marks : List Kind} {qualifiers group items : List Site} {form : List Symbol}
  {groups : List (List Site)}

/-- What holds of the items but not of the marks between them finds the items. -/
theorem filter_listed (listed : Listed marks group items) (test : Site → Bool)
    (each : ∀ c ∈ items, test c = true)
    (between : ∀ m : Site, m.isLeaf = true → m.kind ∈ marks → test m = false) :
    group.filter test = items := by
  induction listed with
  | one c => simpa using each
  | @more group items marked c _ leaves kinds ih =>
    obtain ⟨front, last⟩ := List.forall_mem_append.1 each
    have none : marked.filter test = [] := by
      refine List.filter_eq_nil_iff.2 fun m member => ?_
      rw [between m (leaves m member) (kinds ▸ List.mem_map_of_mem member)]
      exact Bool.false_ne_true
    rw [List.filter_append, List.filter_append, ih front, none, List.append_nil,
      List.filter_eq_self.2 last]

/-- No expressions are found among the qualifiers of a type, and no other types. -/
theorem Qualifies.filter (qualifies : Qualifies qualifiers type) {test : Kind → Bool} :
    (qualifiers ++ [type]).filter (fun c => c.isNode && test c.kind) =
      [type].filter fun c => test c.kind := by
  have none : qualifiers.filter (fun c => c.isNode && test c.kind) = [] := by
    refine List.filter_eq_nil_iff.2 fun q member => ?_
    simp [Site.isNode, qualifies.tokens q member]
  rw [List.filter_append, none, List.nil_append]
  simp [List.filter_cons, Site.isNode, qualifies.node]

theorem not_expression_of_type {k : Kind} (is : isType k = true) : isExpression k = false := by
  cases k <;> first | rfl | cases is

set_option maxRecDepth 10000 in
/-- The expressions in a list of arguments are the arguments. -/
theorem argumentsOf_expressions (whole : list.tree.Whole grammar) (kind : list.kind = .argList) :
    ArgumentsOf list (expressions list) := by
  have forms : Phrase.argList.forms = [[t .lParen, t .rParen], [t .lParen, n .arguments, t .rParen]] := by
    decide
  obtain ⟨form, groups, reads⟩ := exists_reads .argList whole (by rw [kind]; rfl)
  have divides := reads.divides
  rcases reads.eq_or_eq_of_forms forms with rfl | rfl <;> simp only [divides_cons, divides_nil] at divides
  · obtain ⟨_, _, rfl, left, _, _, rfl, right, rfl⟩ := divides
    obtain ⟨l, rfl, l_leaf, _⟩ := stands_terminal.1 left
    obtain ⟨r, rfl, r_leaf, _⟩ := stands_terminal.1 right
    have parts : list.parts = [l, r] := reads.parts
    have none : expressions list = [] := by
      simp [expressions, childrenIn_eq, parts, Site.isNode, l_leaf, r_leaf]
    rw [none]
    exact .none reads
  · obtain ⟨_, _, rfl, left, group, _, rfl, inner, _, _, rfl, right, rfl⟩ := divides
    obtain ⟨l, rfl, l_leaf, _⟩ := stands_terminal.1 left
    obtain ⟨r, rfl, r_leaf, _⟩ := stands_terminal.1 right
    obtain ⟨items, listed, each⟩ := arguments_of_stands inner
    have parts : list.parts = l :: (group ++ [r]) := by simpa using reads.parts
    have found : expressions list = items := by
      have within := filter_listed listed (fun c => c.isNode && isExpression c.kind)
        (fun c member => by simp [Site.isNode, each c member])
        (fun m leaf _ => by simp [Site.isNode, leaf])
      rw [expressions, childrenIn_eq, parts, List.filter_cons, List.filter_append, within]
      simp [Site.isNode, l_leaf, r_leaf]
    rw [found]
    exact .some reads listed

namespace Expression

set_option maxRecDepth 10000 in
theorem exists_assignment (reads : Reads s .assignmentExpr form groups) :
    ∃ e, view? s = some e ∧ e.Shows s := by
  have forms : ∀ form ∈ Phrase.assignmentExpr.forms, ∃ op ∈ Kind.terminals,
      form = [n .expression, t op, n .expression] := by decide
  obtain ⟨op, _, rfl⟩ := forms form reads.known
  have kind : s.kind = .assignmentExpr := reads.kind_eq rfl
  have divides := reads.divides
  simp only [divides_cons, divides_nil] at divides
  obtain ⟨_, _, rfl, left, _, _, rfl, sign, _, _, rfl, right, rfl⟩ := divides
  obtain ⟨lhs, rfl, lhs_node, lhs_is⟩ := expression_of_stands left
  obtain ⟨o, rfl, leaf, rfl⟩ := stands_terminal.1 sign
  obtain ⟨rhs, rfl, rhs_node, rhs_is⟩ := expression_of_stands right
  have parts : s.parts = [lhs, o, rhs] := reads.parts
  refine ⟨_, ?_, .assignment reads⟩
  simp [view?, firstTokenKind?, firstToken?_eq, operand?, expressions, childrenIn_eq, Site.isNode, *]

set_option maxRecDepth 10000 in
theorem exists_conditional (reads : Reads s .conditionalExpr form groups) :
    ∃ e, view? s = some e ∧ e.Shows s := by
  have forms : Phrase.conditionalExpr.forms =
      [[n .expression, t .question, n .expression, t .colon, n .expression]] := by decide
  obtain rfl := reads.eq_of_forms forms
  have kind : s.kind = .conditionalExpr := reads.kind_eq rfl
  have divides := reads.divides
  simp only [divides_cons, divides_nil] at divides
  obtain ⟨_, _, rfl, first, _, _, rfl, question, _, _, rfl, second, _, _, rfl, colon, _, _, rfl, third,
    rfl⟩ := divides
  obtain ⟨condition, rfl, condition_node, condition_is⟩ := expression_of_stands first
  obtain ⟨q, rfl, q_leaf, _⟩ := stands_terminal.1 question
  obtain ⟨a, rfl, a_node, a_is⟩ := expression_of_stands second
  obtain ⟨c, rfl, c_leaf, _⟩ := stands_terminal.1 colon
  obtain ⟨b, rfl, b_node, b_is⟩ := expression_of_stands third
  have parts : s.parts = [condition, q, a, c, b] := reads.parts
  refine ⟨_, ?_, .conditional reads⟩
  simp [view?, operand?, expressions, childrenIn_eq, Site.isNode, *]

set_option maxRecDepth 10000 in
theorem exists_binary (reads : Reads s .binaryExpr form groups) : ∃ e, view? s = some e ∧ e.Shows s := by
  have forms : ∀ form ∈ Phrase.binaryExpr.forms, ∃ op : BinaryOp,
      form = n .expression :: (op.signs.map t ++ [n .expression]) := by
    have listed : Phrase.binaryExpr.forms =
        [BinaryOp.logicalOr, .logicalAnd, .bitOr, .bitXor, .bitAnd, .equal, .notEqual, .less, .greater,
          .lessEqual, .greaterEqual, .shiftLeft, .shiftRight, .add, .subtract, .multiply, .divide,
          .remainder].map fun op => n .expression :: (op.signs.map t ++ [n .expression]) := by decide
    intro form member
    rw [listed] at member
    obtain ⟨op, _, rfl⟩ := List.mem_map.1 member
    exact ⟨op, rfl⟩
  obtain ⟨op, rfl⟩ := forms form reads.known
  have kind : s.kind = .binaryExpr := reads.kind_eq rfl
  obtain ⟨_, _, rfl, left, rest⟩ := divides_cons.1 reads.divides
  obtain ⟨_, _, rfl, between, rest⟩ := divides_append.1 rest
  simp only [divides_cons, divides_nil] at rest
  obtain ⟨_, _, rfl, right, rfl⟩ := rest
  obtain ⟨lhs, rfl, lhs_node, lhs_is⟩ := expression_of_stands left
  obtain ⟨signs, rfl, leaves, kinds⟩ := divides_terminals.1 between
  obtain ⟨rhs, rfl, rhs_node, rhs_is⟩ := expression_of_stands right
  have parts : s.parts = lhs :: (signs ++ [rhs]) := by
    have alone : (signs.map ([·])).flatten = signs := by rw [← List.flatMap_def, List.flatMap_singleton']
    rw [reads.parts]
    simp [alone]
  have none : signs.filter (fun c => c.isNode && isExpression c.kind) = [] := by
    refine List.filter_eq_nil_iff.2 fun c member => ?_
    simp [Site.isNode, leaves c member]
  obtain ⟨k, others, written, told⟩ := op.exists_signs
  rw [written] at kinds
  obtain ⟨first, more, rfl, rfl, _⟩ := List.map_eq_cons_iff.1 kinds
  have leaf : first.isLeaf = true := leaves first (.head _)
  refine ⟨_, ?_, .binary reads⟩
  have operands : expressions s = [lhs, rhs] := by
    rw [expressions, childrenIn_eq, parts, List.filter_cons, List.filter_append, none]
    simp [Site.isNode, *]
  have sign : firstTokenKind? s = some first.kind := by
    simp [firstTokenKind?, firstToken?_eq, *]
  simp [view?, kind, sign, told, operand?, operands]

set_option maxRecDepth 10000 in
theorem exists_unary (reads : Reads s .unaryExpr form groups) : ∃ e, view? s = some e ∧ e.Shows s := by
  have forms : ∀ form ∈ Phrase.unaryExpr.forms, ∃ op ∈ Kind.terminals, form = [t op, n .expression] := by
    decide
  obtain ⟨op, _, rfl⟩ := forms form reads.known
  have kind : s.kind = .unaryExpr := reads.kind_eq rfl
  have divides := reads.divides
  simp only [divides_cons, divides_nil] at divides
  obtain ⟨_, _, rfl, sign, _, _, rfl, right, rfl⟩ := divides
  obtain ⟨o, rfl, leaf, rfl⟩ := stands_terminal.1 sign
  obtain ⟨operand, rfl, node, is⟩ := expression_of_stands right
  have parts : s.parts = [o, operand] := reads.parts
  refine ⟨_, ?_, .unary reads⟩
  simp [view?, firstTokenKind?, firstToken?_eq, operand?, expressions, childrenIn_eq, Site.isNode, *]

set_option maxRecDepth 10000 in
theorem exists_postfixed (reads : Reads s .postfixExpr form groups) :
    ∃ e, view? s = some e ∧ e.Shows s := by
  have forms : ∀ form ∈ Phrase.postfixExpr.forms, ∃ op ∈ Kind.terminals, form = [n .expression, t op] := by
    decide
  obtain ⟨op, _, rfl⟩ := forms form reads.known
  have kind : s.kind = .postfixExpr := reads.kind_eq rfl
  have divides := reads.divides
  simp only [divides_cons, divides_nil] at divides
  obtain ⟨_, _, rfl, left, _, _, rfl, sign, rfl⟩ := divides
  obtain ⟨operand, rfl, node, is⟩ := expression_of_stands left
  obtain ⟨o, rfl, leaf, rfl⟩ := stands_terminal.1 sign
  have parts : s.parts = [operand, o] := reads.parts
  refine ⟨_, ?_, .postfixed reads⟩
  simp [view?, firstTokenKind?, firstToken?_eq, operand?, expressions, childrenIn_eq, Site.isNode, *]

set_option maxRecDepth 10000 in
theorem exists_cast (reads : Reads s .castExpr form groups) : ∃ e, view? s = some e ∧ e.Shows s := by
  have forms : ∀ form ∈ Phrase.castExpr.forms,
      form = [t .lParen, n .builtinType, t .rParen, n .expression] ∨
        ∃ k ∈ Kind.terminals, k.isKeyword = true ∧ form =
          [t k, t .lt, n .specifiers, t .gt, t .lParen, n .expression, t .rParen] := by decide
  have kind : s.kind = .castExpr := reads.kind_eq rfl
  have divides := reads.divides
  rcases forms form reads.known with rfl | ⟨k, _, keyword, rfl⟩ <;>
    simp only [divides_cons, divides_nil] at divides
  · obtain ⟨_, _, rfl, left, _, _, rfl, inner, _, _, rfl, right, _, _, rfl, last, rfl⟩ := divides
    obtain ⟨l, rfl, l_leaf, l_is⟩ := stands_terminal.1 left
    obtain ⟨type, rfl, type_node, type_is⟩ := node_of_stands .builtinType rfl inner
    obtain ⟨r, rfl, r_leaf, _⟩ := stands_terminal.1 right
    obtain ⟨operand, rfl, operand_node, operand_is⟩ := expression_of_stands last
    have parts : s.parts = [l, type, r, operand] := reads.parts
    have bracket : Kind.isKeyword .lParen = false := rfl
    have isType : isType .builtinType = true := rfl
    have other : isExpression .builtinType = false := rfl
    refine ⟨_, ?_, .bracketCast reads⟩
    simp [view?, firstTokenKind?, firstToken?_eq, operand?, expressions, type?, childrenIn_eq, Site.isNode,
      *]
  · obtain ⟨_, _, rfl, word, _, _, rfl, less, group, _, rfl, specifiers, _, _, rfl, greater, _, _, rfl, left,
      _, _, rfl, inner, _, _, rfl, right, rfl⟩ := divides
    obtain ⟨w, rfl, w_leaf, rfl⟩ := stands_terminal.1 word
    obtain ⟨lt, rfl, lt_leaf, _⟩ := stands_terminal.1 less
    obtain ⟨qualifiers, type, rfl, tokens, type_node, type_is⟩ := type_of_stands specifiers
    obtain ⟨gt, rfl, gt_leaf, _⟩ := stands_terminal.1 greater
    obtain ⟨l, rfl, l_leaf, _⟩ := stands_terminal.1 left
    obtain ⟨operand, rfl, operand_node, operand_is⟩ := expression_of_stands inner
    obtain ⟨r, rfl, r_leaf, _⟩ := stands_terminal.1 right
    have qualifies : Qualifies qualifiers type := ⟨tokens, type_node, type_is⟩
    have parts : s.parts = [w, lt] ++ (qualifiers ++ [type]) ++ [gt, l, operand, r] := by
      simpa using reads.parts
    have types : type? s = some type := by
      rw [type?, childrenIn_eq, parts, List.filter_append, List.filter_append, qualifies.filter]
      simp [List.filter_cons, Site.isNode, *]
    have operands : expressions s = [operand] := by
      rw [expressions, childrenIn_eq, parts, List.filter_append, List.filter_append, qualifies.filter]
      simp [Site.isNode, not_expression_of_type type_is, *]
    refine ⟨_, ?_, .keywordCast reads qualifies⟩
    simp [view?, kind, firstTokenKind?, firstToken?_eq, parts, w_leaf, keyword, types, operand?, operands]

set_option maxRecDepth 10000 in
theorem exists_call (whole : s.tree.Whole grammar) (reads : Reads s .callExpr form groups) :
    ∃ e, view? s = some e ∧ e.Shows s := by
  have forms : Phrase.callExpr.forms = [[n .expression, n .argList]] := by decide
  obtain rfl := reads.eq_of_forms forms
  have kind : s.kind = .callExpr := reads.kind_eq rfl
  have divides := reads.divides
  simp only [divides_cons, divides_nil] at divides
  obtain ⟨_, _, rfl, left, _, _, rfl, right, rfl⟩ := divides
  obtain ⟨callee, rfl, callee_node, callee_is⟩ := expression_of_stands left
  obtain ⟨list, rfl, list_node, list_is⟩ := node_of_stands .argList rfl right
  have parts : s.parts = [callee, list] := reads.parts
  have inside : list ∈ s.parts := by simp [parts]
  have other : callee.kind ≠ .argList := by
    intro is
    rw [is] at callee_is
    cases callee_is
  have plain : isExpression .argList = false := rfl
  refine ⟨_, ?_, .call reads (argumentsOf_expressions (Site.whole_of_mem_parts whole inside) list_is)⟩
  simp [view?, operand?, expressions, Ast.arguments, childOf?, childrenOf, childrenIn_eq, Site.isNode, *]

set_option maxRecDepth 10000 in
theorem exists_construct (whole : s.tree.Whole grammar) (reads : Reads s .constructorExpr form groups) :
    ∃ e, view? s = some e ∧ e.Shows s := by
  have forms : Phrase.constructorExpr.forms = [[n .builtinType, n .argList]] := by decide
  obtain rfl := reads.eq_of_forms forms
  have kind : s.kind = .constructorExpr := reads.kind_eq rfl
  have divides := reads.divides
  simp only [divides_cons, divides_nil] at divides
  obtain ⟨_, _, rfl, left, _, _, rfl, right, rfl⟩ := divides
  obtain ⟨type, rfl, type_node, type_is⟩ := node_of_stands .builtinType rfl left
  obtain ⟨list, rfl, list_node, list_is⟩ := node_of_stands .argList rfl right
  have parts : s.parts = [type, list] := reads.parts
  have inside : list ∈ s.parts := by simp [parts]
  refine ⟨_, ?_, .construct reads (argumentsOf_expressions (Site.whole_of_mem_parts whole inside) list_is)⟩
  simp [view?, expressions, Ast.arguments, childOf?, childrenOf, childrenIn_eq, Site.isNode, *]

set_option maxRecDepth 10000 in
theorem exists_index (reads : Reads s .indexExpr form groups) : ∃ e, view? s = some e ∧ e.Shows s := by
  have forms : Phrase.indexExpr.forms = [[n .expression, t .lBracket, n .expression, t .rBracket]] := by
    decide
  obtain rfl := reads.eq_of_forms forms
  have kind : s.kind = .indexExpr := reads.kind_eq rfl
  have divides := reads.divides
  simp only [divides_cons, divides_nil] at divides
  obtain ⟨_, _, rfl, first, _, _, rfl, left, _, _, rfl, second, _, _, rfl, right, rfl⟩ := divides
  obtain ⟨base, rfl, base_node, base_is⟩ := expression_of_stands first
  obtain ⟨l, rfl, l_leaf, _⟩ := stands_terminal.1 left
  obtain ⟨inner, rfl, inner_node, inner_is⟩ := expression_of_stands second
  obtain ⟨r, rfl, r_leaf, _⟩ := stands_terminal.1 right
  have parts : s.parts = [base, l, inner, r] := reads.parts
  refine ⟨_, ?_, .index reads⟩
  simp [view?, operand?, expressions, childrenIn_eq, Site.isNode, *]

set_option maxRecDepth 10000 in
theorem exists_field (reads : Reads s .fieldExpr form groups) : ∃ e, view? s = some e ∧ e.Shows s := by
  have forms : Phrase.fieldExpr.forms =
      [[n .expression, t .dot, t .ident], [n .expression, t .arrow, t .ident]] := by decide
  have kind : s.kind = .fieldExpr := reads.kind_eq rfl
  have divides := reads.divides
  rcases reads.eq_or_eq_of_forms forms with rfl | rfl <;> simp only [divides_cons, divides_nil] at divides <;>
    obtain ⟨_, _, rfl, left, _, _, rfl, sign, _, _, rfl, right, rfl⟩ := divides <;>
    obtain ⟨base, rfl, base_node, base_is⟩ := expression_of_stands left <;>
    obtain ⟨o, rfl, o_leaf, o_is⟩ := stands_terminal.1 sign <;>
    obtain ⟨name, rfl, name_leaf, name_is⟩ := stands_terminal.1 right <;>
    have parts : s.parts = [base, o, name] := reads.parts <;>
    have arrow := token?_eq (s := s) (k := .arrow) rfl <;>
    have named := token?_eq (s := s) (k := .ident) rfl
  · refine ⟨_, ?_, .dot reads⟩
    simp [view?, operand?, expressions, childrenIn_eq, hasToken, identifier?, Site.isNode, *]
  · refine ⟨_, ?_, .arrow reads⟩
    simp [view?, operand?, expressions, childrenIn_eq, hasToken, identifier?, Site.isNode, *]

set_option maxRecDepth 10000 in
theorem exists_paren (reads : Reads s .parenExpr form groups) : ∃ e, view? s = some e ∧ e.Shows s := by
  have forms : Phrase.parenExpr.forms = [[t .lParen, n .expression, t .rParen]] := by decide
  obtain rfl := reads.eq_of_forms forms
  have kind : s.kind = .parenExpr := reads.kind_eq rfl
  have divides := reads.divides
  simp only [divides_cons, divides_nil] at divides
  obtain ⟨_, _, rfl, left, _, _, rfl, inside, _, _, rfl, right, rfl⟩ := divides
  obtain ⟨l, rfl, l_leaf, _⟩ := stands_terminal.1 left
  obtain ⟨inner, rfl, inner_node, inner_is⟩ := expression_of_stands inside
  obtain ⟨r, rfl, r_leaf, _⟩ := stands_terminal.1 right
  have parts : s.parts = [l, inner, r] := reads.parts
  refine ⟨_, ?_, .paren reads⟩
  simp [view?, operand?, expressions, childrenIn_eq, Site.isNode, *]

set_option maxRecDepth 10000 in
theorem exists_sizeOf (reads : Reads s .sizeofExpr form groups) : ∃ e, view? s = some e ∧ e.Shows s := by
  have forms : Phrase.sizeofExpr.forms = [[t .sizeofKw, t .lParen, n .specifiers, t .rParen]] := by decide
  obtain rfl := reads.eq_of_forms forms
  have kind : s.kind = .sizeofExpr := reads.kind_eq rfl
  have divides := reads.divides
  simp only [divides_cons, divides_nil] at divides
  obtain ⟨_, _, rfl, word, _, _, rfl, left, _, _, rfl, specifiers, _, _, rfl, right, rfl⟩ := divides
  obtain ⟨w, rfl, w_leaf, _⟩ := stands_terminal.1 word
  obtain ⟨l, rfl, l_leaf, _⟩ := stands_terminal.1 left
  obtain ⟨qualifiers, type, rfl, tokens, type_node, type_is⟩ := type_of_stands specifiers
  obtain ⟨r, rfl, r_leaf, _⟩ := stands_terminal.1 right
  have qualifies : Qualifies qualifiers type := ⟨tokens, type_node, type_is⟩
  have parts : s.parts = [w, l] ++ (qualifiers ++ [type]) ++ [r] := by simpa using reads.parts
  have types : type? s = some type := by
    rw [type?, childrenIn_eq, parts, List.filter_append, List.filter_append, qualifies.filter]
    simp [Site.isNode, *]
  refine ⟨_, ?_, .sizeOf reads qualifies⟩
  simp [view?, kind, types]

set_option maxRecDepth 10000 in
theorem exists_literal (reads : Reads s .literal form groups) : ∃ e, view? s = some e ∧ e.Shows s := by
  have forms : ∀ form ∈ Phrase.literal.forms, ∃ k ∈ Kind.terminals,
      (LiteralKind.ofKind? k).isSome = true ∧ form = [t k] := by decide
  obtain ⟨k, _, known, rfl⟩ := forms form reads.known
  have kind : s.kind = .literal := reads.kind_eq rfl
  have divides := reads.divides
  simp only [divides_cons, divides_nil] at divides
  obtain ⟨_, _, rfl, only, rfl⟩ := divides
  obtain ⟨token, rfl, leaf, rfl⟩ := stands_terminal.1 only
  obtain ⟨own, means⟩ := Option.isSome_iff_exists.1 known
  have parts : s.parts = [token] := reads.parts
  have meaning : firstMeaning? s LiteralKind.ofKind? = some own := by
    have blanks : ∀ k : Kind, k.isTrivia = true → LiteralKind.ofKind? k = none := by
      intro k blank
      cases k <;> first | rfl | cases blank
    rw [firstMeaning?, Site.findSome?_childLeaves blanks, parts]
    simp [leaf, means]
  refine ⟨_, ?_, .literal reads means⟩
  simp [view?, firstToken?_eq, *]

set_option maxRecDepth 10000 in
theorem exists_name (reads : Reads s .nameRef form groups) : ∃ e, view? s = some e ∧ e.Shows s := by
  have forms : Phrase.nameRef.forms = [[n .path]] := by decide
  obtain rfl := reads.eq_of_forms forms
  have kind : s.kind = .nameRef := reads.kind_eq rfl
  have divides := reads.divides
  simp only [divides_cons, divides_nil] at divides
  obtain ⟨group, _, rfl, path, rfl⟩ := divides
  obtain ⟨words, listed, each⟩ := path_of_stands path
  have parts : s.parts = group := by simpa using reads.parts
  have found : s.childLeaves.filter (fun c => c.kind = .ident) = words := by
    have text (c : Site) (blank : c.kind.isTrivia = true) : decide (c.kind = .ident) = false := by
      refine decide_eq_false fun is => ?_
      rw [is] at blank
      cases blank
    rw [Site.filter_childLeaves text, parts]
    exact filter_listed listed _ (fun c member => by simp [each c member])
      (fun m _ member => by simp [List.mem_singleton.1 member])
  refine ⟨_, ?_, .name reads listed⟩
  simp [view?, kind, segments, found]

end Expression

theorem isExpression_iff {k : Kind} : isExpression k = true ↔
    k ∈ [Kind.assignmentExpr, .conditionalExpr, .binaryExpr, .unaryExpr, .postfixExpr, .castExpr, .callExpr,
      .constructorExpr, .indexExpr, .fieldExpr, .parenExpr, .sizeofExpr, .literal, .nameRef] := by
  cases k <;> decide

/-- Every expression without repairs has a view, and it shows the parts of the form that it has. -/
theorem Expression.exists_view (whole : s.tree.Whole grammar) (is : isExpression s.kind = true) :
    ∃ e, view? s = some e ∧ e.Shows s := by
  have reads (phrase : Phrase) (kind : phrase.nonterminal.node? = some s.kind) :=
    exists_reads phrase whole kind
  simp only [isExpression_iff, List.mem_cons, List.not_mem_nil, or_false] at is
  rcases is with is | is | is | is | is | is | is | is | is | is | is | is | is | is
  · obtain ⟨form, groups, reads⟩ := reads .assignmentExpr (is ▸ rfl)
    exact exists_assignment reads
  · obtain ⟨form, groups, reads⟩ := reads .conditionalExpr (is ▸ rfl)
    exact exists_conditional reads
  · obtain ⟨form, groups, reads⟩ := reads .binaryExpr (is ▸ rfl)
    exact exists_binary reads
  · obtain ⟨form, groups, reads⟩ := reads .unaryExpr (is ▸ rfl)
    exact exists_unary reads
  · obtain ⟨form, groups, reads⟩ := reads .postfixExpr (is ▸ rfl)
    exact exists_postfixed reads
  · obtain ⟨form, groups, reads⟩ := reads .castExpr (is ▸ rfl)
    exact exists_cast reads
  · obtain ⟨form, groups, reads⟩ := reads .callExpr (is ▸ rfl)
    exact exists_call whole reads
  · obtain ⟨form, groups, reads⟩ := reads .constructorExpr (is ▸ rfl)
    exact exists_construct whole reads
  · obtain ⟨form, groups, reads⟩ := reads .indexExpr (is ▸ rfl)
    exact exists_index reads
  · obtain ⟨form, groups, reads⟩ := reads .fieldExpr (is ▸ rfl)
    exact exists_field reads
  · obtain ⟨form, groups, reads⟩ := reads .parenExpr (is ▸ rfl)
    exact exists_paren reads
  · obtain ⟨form, groups, reads⟩ := reads .sizeofExpr (is ▸ rfl)
    exact exists_sizeOf reads
  · obtain ⟨form, groups, reads⟩ := reads .literal (is ▸ rfl)
    exact exists_literal reads
  · obtain ⟨form, groups, reads⟩ := reads .nameRef (is ▸ rfl)
    exact exists_name reads

end ShaderTree.Ast
