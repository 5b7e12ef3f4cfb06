import ShaderTree.Proofs.Metal.Plans
import ShaderTree.Proofs.Parser.Operands
import ShaderTree.Proofs.Parser.Quiet

/-! Expressions of the built-in language are grouped by their operators. All operands are expressions in
the grammar, so it is the levels alone that keep a sum out of a product and an assignment out of a call. -/
namespace ShaderTree

/-- Levels of the binary operators by their first tokens, the loosest first. -/
def Kind.binaryLevel? : Kind → Option Nat
  | .pipePipe => some 0
  | .ampAmp => some 1
  | .pipe => some 2
  | .caret => some 3
  | .amp => some 4
  | .eqEq | .bangEq => some 5
  | .lt | .gt | .ltEq | .gtEq => some 6
  | .shl | .gtJoint => some 7
  | .plus | .minus => some 8
  | .star | .slash | .percent => some 9
  | _ => none

/-- A node without its operands: its kind, and the token that tells a binary operator or a cast from
others of that kind. -/
structure Operation where
  kind : Kind
  sign? : Option Kind

namespace Operation

/-- Nodes of this kind are told apart by a token. -/
def isSigned (k : Kind) : Bool := k = .binaryExpr || k = .castExpr

variable (o : Operation)

def level? : Option Nat := if o.kind = .binaryExpr then o.sign?.bind Kind.binaryLevel? else none

def isLoose : Bool := o.kind = .assignmentExpr || o.kind = .conditionalExpr

/-- An operator in front of its operand, or a cast to a type in parentheses. -/
def isUnary : Bool := o.kind = .unaryExpr || o.kind = .castExpr && o.sign? = some .lParen

/-- An operator behind its operand. -/
def isSuffix : Bool :=
  o.kind = .callExpr || o.kind = .indexExpr || o.kind = .fieldExpr || o.kind = .postfixExpr

/-- Precedence and associativity, for the operands of one node. -/
structure Groups (o : Operation) (operands : List Operation) : Prop where
  binary : o.kind = .binaryExpr → ∃ level left right, o.level? = some level ∧ operands = [left, right] ∧
    (left.kind = .binaryExpr → ∃ n, left.level? = some n ∧ level ≤ n) ∧
    (right.kind = .binaryExpr → ∃ n, right.level? = some n ∧ level < n) ∧
    left.isLoose = false ∧ right.isLoose = false
  assignment : o.kind = .assignmentExpr → ∃ left right, operands = [left, right] ∧
    left.kind ≠ .assignmentExpr
  conditional : o.kind = .conditionalExpr → ∃ condition yes no, operands = [condition, yes, no] ∧
    condition.isLoose = false
  unary : o.isUnary = true → ∃ operand, operands.getLast? = some operand ∧
    operand.kind ≠ .binaryExpr ∧ operand.isLoose = false
  suffix : o.isSuffix = true → ∃ base, operands.head? = some base ∧ base.kind ≠ .binaryExpr ∧
    base.isLoose = false ∧ base.isUnary = false

end Operation

namespace Tree

def operation (u : Tree) : Operation :=
  ⟨u.kind, if Operation.isSigned u.kind then token? u.children else none⟩

/-- Precedence and associativity in one node. -/
def Grouped (u : Tree) : Prop := u.operation.Groups ((innerNodes u.children).map operation)

variable {ts : List Tree} {u : Tree}

theorem operation_plain (u : Tree) : u.plain.operation = u.operation := by
  rw [operation, operation, kind_plain, children_plain, token?, token?, List.find?_map]
  simp [Function.comp_def, isLeaf_plain, kind_plain]

theorem Grouped.of_plain (grouped : u.plain.Grouped) : u.Grouped := by
  have inside : (innerNodes u.plain.children).map operation = (innerNodes u.children).map operation := by
    rw [children_plain, innerNodes, innerNodes, List.filter_map, List.map_map]
    simp [Function.comp_def, isLeaf_plain, operation_plain]
  rw [Grouped, ← operation_plain, ← inside]
  exact grouped

end Tree

/-! The operators of the grammar -/

namespace Metal

/-- The nonterminal of all operands. -/
def expression : Nat := Phrase.expression.index

/-- The nonterminals that an operand can be. -/
def operands : List Nat :=
  grammar.productions.toList.filterMap fun p =>
    match p.rhs with
    | [.nonterminal n] => if p.lhs = expression then some n else none
    | _ => none

/-- The productions of these nonterminals. -/
def operators : List (Production × Nat) :=
  grammar.productions.toList.zipIdx.filter fun o => operands.contains o.1.lhs

/-- The terminal in front, or behind the operand in front. -/
def sign? : List Symbol → Option Kind
  | .terminal k :: _ => some k
  | .nonterminal n :: .terminal k :: _ => if n = expression then some k else none
  | _ => none

/-- The terminal behind the operand in front, be it the first of a list of arguments. -/
def behind? : List Symbol → Option Kind
  | .nonterminal n :: .terminal k :: _ => if n = expression then some k else none
  | .nonterminal n :: .nonterminal m :: _ =>
    if n = expression && m = Phrase.argList.index then some .lParen else none
  | _ => none

/-- What the node of a production is, its operands aside. -/
def operation? (production : Production) : Option Operation :=
  (grammar.node? production.lhs).map fun k =>
    ⟨k, if Operation.isSigned k then sign? production.rhs else none⟩

/-- An operand stands at the end. -/
def isOpen (production : Production) : Bool :=
  production.rhs.getLast? = some (.nonterminal expression)

end Metal

namespace Operation

variable (outer inner : Operation)

/-- Whether the first operand can be such an expression. -/
def allowsFirst : Bool :=
  match outer.kind with
  | .binaryExpr => !inner.isLoose &&
      (inner.kind ≠ .binaryExpr || inner.level?.any fun n => outer.level?.any (· ≤ n))
  | .assignmentExpr => inner.kind ≠ .assignmentExpr
  | .conditionalExpr => !inner.isLoose
  | _ => !outer.isSuffix || inner.kind ≠ .binaryExpr && !inner.isLoose && !inner.isUnary

/-- Whether the last operand can be such an expression. -/
def allowsLast : Bool :=
  match outer.kind with
  | .binaryExpr => !inner.isLoose &&
      (inner.kind ≠ .binaryExpr || inner.level?.any fun n => outer.level?.any (· < n))
  | _ => !outer.isUnary || inner.kind ≠ .binaryExpr && !inner.isLoose

/-- How many operands there are, if all of them are expressions. -/
def arity? : Option Nat :=
  match outer.kind with
  | .binaryExpr | .assignmentExpr => some 2
  | .conditionalExpr => some 3
  | _ => none

def hasFirst : Bool := outer.arity?.isSome || outer.isSuffix

def hasLast : Bool := outer.kind = .binaryExpr || outer.isUnary

variable {outer inner} {operands : List Operation}

/-- Between two operators of levels, what is allowed is said by the levels. -/
theorem of_levels {level : Nat} {r : Nat → Nat → Bool} (known : outer.level? = some level)
    (allowed : (!inner.isLoose && (inner.kind ≠ .binaryExpr ||
      inner.level?.any fun n => outer.level?.any (r n))) = true) :
    (inner.kind = .binaryExpr → ∃ n, inner.level? = some n ∧ r n level = true) ∧
      inner.isLoose = false := by
  rw [known, Bool.and_eq_true, Bool.not_eq_true', Bool.or_eq_true, decide_eq_true_iff] at allowed
  obtain ⟨tight, binary⟩ := allowed
  refine ⟨fun kind => ?_, tight⟩
  rcases binary with other | levels
  · exact absurd kind other
  · exact (Option.any_eq_true _ _).1 levels

theorem groups_of (level : outer.kind = .binaryExpr → outer.level?.isSome = true)
    (length : ∀ n ∈ outer.arity?, operands.length = n)
    (first : outer.hasFirst = true → ∃ o, operands.head? = some o ∧ outer.allowsFirst o = true)
    (last : outer.hasLast = true → ∃ o, operands.getLast? = some o ∧ outer.allowsLast o = true) :
    outer.Groups operands := by
  refine ⟨fun kind => ?_, fun kind => ?_, fun kind => ?_, fun unary => ?_, fun suffix => ?_⟩
  · obtain ⟨left, head, allowed⟩ := first (by simp [hasFirst, arity?, kind])
    obtain ⟨right, last, allowed'⟩ := last (by simp [hasLast, kind])
    obtain ⟨n, known⟩ := Option.isSome_iff_exists.1 (level kind)
    obtain ⟨a, b, rfl⟩ := List.length_eq_two.1 (length 2 (by simp [arity?, kind]))
    cases head
    cases last
    simp only [allowsFirst, allowsLast, kind] at allowed allowed'
    obtain ⟨atLeast, tight⟩ := of_levels known allowed
    obtain ⟨more, tight'⟩ := of_levels known allowed'
    exact ⟨n, _, _, known, rfl, by simpa using atLeast, by simpa using more, tight, tight'⟩
  · obtain ⟨left, head, allowed⟩ := first (by simp [hasFirst, arity?, kind])
    obtain ⟨a, b, rfl⟩ := List.length_eq_two.1 (length 2 (by simp [arity?, kind]))
    cases head
    exact ⟨_, _, rfl, by simpa [allowsFirst, kind] using allowed⟩
  · obtain ⟨condition, head, allowed⟩ := first (by simp [hasFirst, arity?, kind])
    obtain ⟨a, b, c, rfl⟩ := List.length_eq_three.1 (length 3 (by simp [arity?, kind]))
    cases head
    exact ⟨_, _, _, rfl, by simpa [allowsFirst, kind] using allowed⟩
  · obtain ⟨operand, last, allowed⟩ := last (by simp [hasLast, unary])
    have kind : outer.kind = .unaryExpr ∨ outer.kind = .castExpr := by
      simp only [isUnary, Bool.or_eq_true, Bool.and_eq_true, decide_eq_true_iff] at unary
      exact unary.imp_right (·.1)
    refine ⟨operand, last, ?_⟩
    rcases kind with kind | kind <;> simpa [allowsLast, kind, unary] using allowed
  · obtain ⟨base, head, allowed⟩ := first (by simp [hasFirst, suffix])
    have kind : outer.kind = .callExpr ∨ outer.kind = .indexExpr ∨ outer.kind = .fieldExpr ∨
        outer.kind = .postfixExpr := by
      simpa [isSuffix, or_assoc] using suffix
    refine ⟨base, head, ?_⟩
    rcases kind with kind | kind | kind | kind <;>
      simpa [allowsFirst, kind, suffix, and_assoc] using allowed

end Operation

namespace Grammar

variable {g : Grammar}

theorem NamesNodes.named {t : Table} (names : g.NamesNodes) (built : t.BuiltFrom g) : t.Named := by
  have node {p : Nat} {r : Reduction} {k : Kind} (known : t.reductions[p]? = some r)
      (own : r.node? = some k) :
      ∃ n, g.nonterminals[r.lhs]? = some n ∧ n.node? = some k := by
    obtain ⟨_, _, lhs, _, _, is⟩ := Table.reduction_eq built known
    rw [lhs]
    exact Option.bind_eq_some_iff.1 (is.symm.trans own)
  intro p r k known own
  have listed : r ∈ t.reductions.toList.reverse :=
    List.mem_reverse.2 (Array.mem_toList_iff.2 (Array.mem_of_getElem? known))
  cases found : t.reductions.toList.reverse.find? fun r => r.node? = some k with
  | none => exact absurd (List.find?_eq_none.1 found r listed) (by simp [own])
  | some r' =>
    have member := List.mem_reverse.1 (List.mem_of_find?_eq_some found)
    obtain ⟨q, known'⟩ := Array.mem_iff_getElem?.1 (Array.mem_toList_iff.1 member)
    have own' := List.find?_some found
    obtain ⟨_, here, mine⟩ := node known own
    obtain ⟨_, here', mine'⟩ := node known' (by simpa using own')
    rw [Table.nonterminalOf?, found, names.distinct here here' mine mine']
    rfl

end Grammar

namespace Metal

set_option maxRecDepth 10000 in
/-- An operator that stands where it is not allowed would have to group against its level. -/
theorem operators_group : ∀ o ∈ operators, ∀ outer ∈ operation? o.1,
    (∀ k ∈ behind? o.1.rhs, ∀ i ∈ operators, ∀ inner ∈ operation? i.1,
      outer.allowsFirst inner = true ∨
        isOpen i.1 = true ∧ ¬ (grammar.Above i.2 k ∨ grammar.Level i.2 k .left)) ∧
    (isOpen o.1 = true → ∀ i ∈ operators, ∀ inner ∈ operation? i.1,
      outer.allowsLast inner = true ∨
        ∃ k ∈ behind? i.1.rhs, ¬ (grammar.Below o.2 k ∨ grammar.Level o.2 k .right)) := by
  decide

set_option maxRecDepth 10000 in
/-- The productions have the operators and operands that their nodes are said to have. -/
theorem operators_shape : ∀ o ∈ grammar.productions.toList.zipIdx, ∀ outer ∈ operation? o.1,
    (Operation.isSigned outer.kind = true → (sign? o.1.rhs).isSome = true) ∧
    (outer.kind = .binaryExpr → outer.level?.isSome = true) ∧
    (∀ n ∈ outer.arity?, o.1.rhs.countP (·.isNonterminal) = n ∧
      ∀ x ∈ o.1.rhs, x.isNonterminal = true → x = .nonterminal expression) ∧
    (outer.hasFirst = true → operands.contains o.1.lhs = true ∧ (behind? o.1.rhs).isSome = true) ∧
    (outer.hasLast = true → operands.contains o.1.lhs = true ∧ isOpen o.1 = true) := by
  decide

set_option maxRecDepth 10000 in
/-- What else the grouping rests on. -/
theorem operands_shape :
    grammar.node? expression = none ∧
    (∀ p ∈ grammar.productions.toList, p.lhs = expression → ∃ m ∈ operands,
      p.rhs = [.nonterminal m] ∧ (grammar.node? m).isSome = true) ∧
    (∀ p ∈ grammar.productions.toList, ∀ m ∈ operands, .nonterminal m ∈ p.rhs →
      p.lhs = expression ∧ p.rhs = [.nonterminal m]) ∧
    grammar.start ∉ operands ∧
    (∀ p ∈ grammar.productions.toList, p.lhs = Phrase.argList.index →
      p.rhs.head? = some (.terminal .lParen)) ∧
    (∃ p ∈ grammar.productions.toList, p.lhs = Phrase.argList.index) ∧
    ∀ o ∈ operators, ∀ k ∈ behind? o.1.rhs, ∀ b ∈ grammar.tokenPrecedence? k,
      b.associativity ≠ .nonassoc := by
  decide

variable {n p : Nat} {production : Production} {rhs : List Symbol} {k : Kind}

theorem mem_operands (member : n ∈ operands) :
    ∃ u unit, grammar.IsRule u unit ∧ unit.lhs = expression ∧ unit.rhs = [.nonterminal n] := by
  obtain ⟨unit, inside, is⟩ := List.mem_filterMap.1 member
  obtain ⟨u, known⟩ := Array.mem_iff_getElem?.1 (Array.mem_toList_iff.1 inside)
  split at is
  · rename_i m rhs
    split at is
    · rename_i lhs
      cases is
      exact ⟨u, unit, declared.isRule known, lhs, rhs⟩
    · cases is
  · cases is

theorem operand_of_mem (rule : grammar.IsRule p production)
    (member : operands.contains production.lhs = true) : grammar.Operand expression p production :=
  ⟨rule, mem_operands (List.contains_iff_mem.1 member)⟩

theorem mem_operators (operand : grammar.Operand expression p production) :
    (production, p) ∈ operators := by
  obtain ⟨u, unit, rule, lhs, rhs⟩ := operand.unit
  refine List.mem_filter.2 ⟨operand.rule.mem_zipIdx, List.contains_iff_mem.2 ?_⟩
  refine List.mem_filterMap.2 ⟨unit, rule.mem, ?_⟩
  simp [rhs, lhs]

theorem forwards : grammar.Forwards expression := by
  obtain ⟨hidden, stands, _⟩ := operands_shape
  refine ⟨hidden, fun p production rule lhs => ?_⟩
  obtain ⟨m, _, rhs, node⟩ := stands production rule.mem lhs
  obtain ⟨k, node⟩ := Option.isSome_iff_exists.1 node
  exact ⟨m, k, rhs, node⟩

theorem onlyIn (member : n ∈ operands) : grammar.OnlyIn expression n := by
  obtain ⟨_, _, alone, start, _⟩ := operands_shape
  intro i next
  unfold Grammar.next? Grammar.rhs at next
  cases known : grammar.productions[i.production]? with
  | none =>
    rw [known] at next
    have here := List.mem_of_getElem? next
    rw [List.mem_singleton, Symbol.nonterminal.injEq] at here
    exact absurd (here ▸ member) start
  | some r =>
    rw [known] at next
    have rule := declared.isRule known
    obtain ⟨lhs, rhs⟩ := alone r rule.mem n member (List.mem_of_getElem? next)
    refine ⟨?_, r, rule, lhs, rhs⟩
    obtain ⟨bound, _⟩ := List.getElem?_eq_some_iff.1 next
    simpa [rhs] using bound

theorem startsWith_argList : grammar.StartsWith .lParen (.nonterminal Phrase.argList.index) := by
  obtain ⟨_, _, _, _, heads, ⟨r, inside, lhs⟩, _⟩ := operands_shape
  obtain ⟨q, known⟩ := Array.mem_iff_getElem?.1 (Array.mem_toList_iff.1 inside)
  exact ⟨⟨q, r, declared.isRule known, lhs⟩, fun _ inner rule => heads inner rule.mem⟩

theorem exists_behind (is : behind? rhs = some k) :
    ∃ x more, rhs = .nonterminal expression :: x :: more ∧ grammar.StartsWith k x := by
  unfold behind? at is
  split at is
  · rename_i n l more
    split at is
    · rename_i same
      cases is
      exact ⟨.terminal k, more, by rw [same], rfl⟩
    · cases is
  · rename_i n m more
    split at is
    · rename_i same
      rw [Bool.and_eq_true, decide_eq_true_iff, decide_eq_true_iff] at same
      cases is
      exact ⟨_, more, by rw [same.1], by rw [same.2]; exact startsWith_argList⟩
    · cases is
  · cases is

theorem exists_open (is : isOpen production = true) :
    ∃ front, production.rhs = front ++ [.nonterminal expression] :=
  List.getLast?_eq_some_iff.1 (by simpa [isOpen] using is)

/-! Nodes that are read -/

variable {t : Table} {base : Nat} {follow : Kind} {path xs : List Symbol} {ls : List Token.Label}
  {cells : List Cell} {outer : Operation}

theorem token?_of_sign (parts : t.BuiltFrom grammar) (sign : sign? production.rhs = some k)
    (reads : t.Reads grammar base follow production.rhs.reverse ls cells) :
    Tree.token? (Cell.forest cells) = some k := by
  unfold sign? at sign
  split at sign
  · rename_i l more rhs
    cases sign
    rw [rhs, List.reverse_cons] at reads
    exact reads.token?_of_terminal
  · rename_i n l more rhs
    split at sign
    · rename_i same
      cases sign
      rw [rhs, same, List.reverse_cons, List.reverse_cons, List.append_assoc] at reads
      exact reads.token?_of_node parts (.inr forwards)
    · cases sign
  · cases sign

theorem operation_of_reads (parts : t.BuiltFrom grammar) (rule : grammar.IsRule p production)
    (node : grammar.node? production.lhs = some k)
    (reads : t.Reads grammar base follow production.rhs.reverse ls cells) :
    operation? production = some (Tree.node k {} (Cell.forest cells)).operation := by
  have own : operation? production =
      some ⟨k, if Operation.isSigned k then sign? production.rhs else none⟩ := by
    rw [operation?, node]
    rfl
  obtain ⟨signed, _⟩ := operators_shape _ rule.mem_zipIdx _ own
  rw [own, Tree.operation]
  change some (Operation.mk k _) = some ⟨k, if Operation.isSigned k then _ else none⟩
  cases told : Operation.isSigned k with
  | false => rfl
  | true =>
    obtain ⟨l, sign⟩ := Option.isSome_iff_exists.1 (signed told)
    rw [sign]
    change _ = some (Operation.mk k (Tree.token? (Cell.forest cells)))
    rw [token?_of_sign parts sign reads]
    rfl

/-- The first operand may stand where it does. -/
theorem exists_first (built : table = .ok t) (rule : grammar.IsRule p production)
    (is : operation? production = some outer) (hasFirst : outer.hasFirst = true)
    (reads : t.Reads grammar base follow production.rhs.reverse ls cells)
    (reaches : grammar.Reaches path base) :
    ∃ u, (Tree.innerNodes (Cell.forest cells)).head? = some u ∧ outer.allowsFirst u.operation = true := by
  have parts := Table.build_ok built
  obtain ⟨_, _, _, first, _⟩ := operators_shape _ rule.mem_zipIdx _ is
  obtain ⟨operand, behind⟩ := first hasFirst
  obtain ⟨k, behind⟩ := Option.isSome_iff_exists.1 behind
  obtain ⟨x, more, rhs, second⟩ := exists_behind behind
  have infix' := operand_of_mem rule operand
  rw [rhs, List.reverse_cons, List.reverse_cons] at reads
  obtain ⟨q, other, l, back, ls', cells', mid, high, operand', node, head, inside, action, others⟩ :=
    reads.exists_first_operand parts forwards
  obtain ⟨_, ahead⟩ := others.exists_shift second
  rw [ahead] at inside action
  have own := operation_of_reads parts operand'.rule node inside
  refine ⟨_, head, ?_⟩
  obtain ⟨groups, _⟩ := operators_group _ (mem_operators infix') _ is
  rcases groups k behind _ (mem_operators operand') _ own with allowed | ⟨ends, against⟩
  · exact allowed
  · obtain ⟨_, _, _, _, _, _, nonassoc⟩ := operands_shape
    obtain ⟨front, rhs'⟩ := exists_open ends
    exact absurd (inside.groups_left built (nonassoc _ (mem_operators infix') k behind) infix' rhs
      second rhs' operand'.rule reaches action) against

/-- The last operand may stand where it does. -/
theorem exists_last (built : table = .ok t) (rule : grammar.IsRule p production)
    (is : operation? production = some outer) (hasLast : outer.hasLast = true)
    (reads : t.Reads grammar base follow production.rhs.reverse ls cells)
    (reaches : grammar.Reaches path base) (action : t.action (Cell.top base cells) follow = .reduce p) :
    ∃ u, (Tree.innerNodes (Cell.forest cells)).getLast? = some u ∧
      outer.allowsLast u.operation = true := by
  have parts := Table.build_ok built
  obtain ⟨_, _, _, _, last⟩ := operators_shape _ rule.mem_zipIdx _ is
  obtain ⟨operand, ends⟩ := last hasLast
  obtain ⟨front, rhs⟩ := exists_open ends
  have left := operand_of_mem rule operand
  have whole := reads
  rw [rhs, List.reverse_append] at reads
  obtain ⟨q, other, l, cell, below, ls', cells', operand', node, stack, last, inside⟩ :=
    reads.exists_last_operand parts forwards
  have own := operation_of_reads parts operand'.rule node inside
  refine ⟨_, last, ?_⟩
  obtain ⟨_, groups⟩ := operators_group _ (mem_operators left) _ is
  rcases groups ends _ (mem_operators operand') _ own with allowed | ⟨k, behind, against⟩
  · exact allowed
  · obtain ⟨_, _, _, _, _, _, nonassoc⟩ := operands_shape
    obtain ⟨x, more, rhs', second⟩ := exists_behind behind
    exact absurd (whole.groups_right built declared
      (nonassoc _ (mem_operators operand') k behind) left
      (onlyIn (List.contains_iff_mem.1 operand)) rhs reaches action operand' rhs' second stack inside)
      against

/-- All operands show as nodes where all of them are expressions. -/
theorem length_operands (parts : t.BuiltFrom grammar) (rule : grammar.IsRule p production)
    (is : operation? production = some outer) (arity : outer.arity? = some n)
    (reads : t.Reads grammar base follow production.rhs.reverse ls cells) :
    (Tree.innerNodes (Cell.forest cells)).length = n := by
  obtain ⟨_, _, shape, _⟩ := operators_shape _ rule.mem_zipIdx _ is
  obtain ⟨count, alone⟩ := shape n arity
  have shows : ∀ m, .nonterminal m ∈ production.rhs.reverse → grammar.Shows m := by
    intro m member
    obtain ⟨rfl⟩ := alone _ (List.mem_reverse.1 member) rfl
    exact .inr forwards
  rw [reads.length_innerNodes parts shows, List.countP_reverse, count]

/-- What is reduced to a node is grouped in it. -/
theorem grouped_of_reads (built : table = .ok t) (rule : grammar.IsRule p production)
    (node : grammar.node? production.lhs = some k)
    (reads : t.Reads grammar base follow production.rhs.reverse ls cells)
    (reaches : grammar.Reaches path base)
    (action : t.action (Cell.top base cells) follow = .reduce p) :
    (Tree.node k {} (Cell.forest cells)).Grouped := by
  have parts := Table.build_ok built
  have is := operation_of_reads parts rule node reads
  obtain ⟨_, level, _⟩ := operators_shape _ rule.mem_zipIdx _ is
  refine Operation.groups_of level (fun n arity => ?_) (fun hasFirst => ?_) fun hasLast => ?_
  · rw [List.length_map]
    exact length_operands parts rule is arity reads
  · obtain ⟨u, head, allowed⟩ := exists_first built rule is hasFirst reads reaches
    exact ⟨u.operation, by rw [List.head?_map]; exact congrArg _ head, allowed⟩
  · obtain ⟨u, last, allowed⟩ := exists_last built rule is hasLast reads reaches action
    exact ⟨u.operation, by rw [List.getLast?_map]; exact congrArg _ last, allowed⟩

/-- All nodes of what is read are grouped. -/
theorem allGrouped_of_reads (built : table = .ok t) (reads : t.Reads grammar base follow xs ls cells)
    (reaches : grammar.Reaches path base) : ∀ u ∈ Tree.nodesAll (Cell.forest cells), u.Grouped := by
  have parts := Table.build_ok built
  have leaves (labels : List Token.Label) :
      Tree.nodesAll (labels.map fun l => Tree.leaf l.1 l.2) = [] := by
    induction labels with
    | nil => rfl
    | cons l labels ih => rw [List.map_cons, Tree.nodesAll, Tree.nodes, ih, List.nil_append]
  induction reads generalizing path with
  | nil => simp [Cell.forest, Tree.nodesAll]
  | token _ _ _ _ _ ih =>
    rw [Cell.forest_cons, Cell.forest_append, Cell.forest_blanks]
    simpa [leaves, Tree.nodesAll, Tree.nodes] using ih reaches
  | @rule base next p follow ls blanks ls' xs cells cells' production r front inside tight between rule
      known action goto ihFront ihInside =>
    have before := ihFront reaches
    have after := front.reaches parts reaches
    have below := ihInside after
    obtain ⟨_, found, _, _, _, node⟩ := Table.reduction_eq parts known
    obtain rfl := Option.some.inj (rule.1.symm.trans found)
    have made : ∀ u ∈ Tree.nodesAll (r.trees (Cell.forest cells')), u.Grouped := by
      cases own : r.node? with
      | none => simpa [Reduction.trees, own] using below
      | some k =>
        have top := grouped_of_reads built rule (node.symm.trans own) inside after action
        simpa [Reduction.trees, own, Tree.nodesAll, Tree.nodes, top] using below
    rw [Cell.forest_cons, Cell.forest_append, Cell.forest_blanks]
    simpa [leaves, or_imp, forall_and] using ⟨before, made⟩

/-- Every node of a parse without reports is grouped: operands of a binary operator are of its level or
tighter to the left of it and tighter to the right, and neither assignments nor conditionals; what is
assigned to is no assignment, and a condition is neither that nor a conditional; the operand of an
operator in front of it, or of a cast to a type in parentheses, is none of the three, and what is called,
indexed, accessed or counted up is none of them and has no operator in front. -/
theorem parsed_grouped {p : Parser} (built : table = .ok p.language.table) {text : String}
    {d : Document} (parsed : p.parse text = .ok d) (quiet : d.diagnostics = []) :
    ∀ u ∈ d.root.nodes, u.Grouped := by
  have named : p.language.table.Named := namesNodes.named (Table.build_ok built)
  obtain ⟨_, _, _, cells, front, middle, back, reads, root, trees, leaves⟩ :=
    p.exists_reads built named parsed quiet
  have none {us : List Tree} (leaves : ∀ u ∈ us, u.isLeaf = true) : Tree.nodesAll us = [] := by
    induction us with
    | nil => rfl
    | cons u us ih =>
      cases u with
      | leaf => exact ih fun v member => leaves v (.tail _ member)
      | node => cases leaves _ (.head _)
  have outside := List.forall_mem_append.1 leaves
  rw [root]
  intro u member
  rw [Tree.nodes, Tree.nodesAll_append, Tree.nodesAll_append, none outside.1, none outside.2,
    List.nil_append, List.append_nil] at member
  rcases List.mem_cons.1 member with rfl | inside
  · exact Operation.groups_of nofun nofun nofun nofun
  · refine Tree.Grouped.of_plain (allGrouped_of_reads built reads .start _ ?_)
    rw [← trees, Tree.nodesAll_plainAll]
    exact List.mem_map_of_mem inside

/-! A product in a sum -/

def sumPlan : Plan :=
  let operand (name : String) := through [.expression, .nameRef, .path] (word .ident name)
  let product := through [.expression, .binaryExpr] (operand "b" ++ word .star "*" ++ operand "c")
  let sum := through [.expression, .binaryExpr] (operand "a" ++ word .plus "+" ++ product)
  through [.program, .items, .item, .declaration]
    (through [.specifiers, .typeSpecifier, .builtinType] (word .primitiveType "int") ++
      through [.initDeclarators, .initDeclarator]
        (through [.declarator, .directDeclarator, .name] (spaced .ident "x") ++ word .eq "=" ++
          through [.initializer] sum) ++ word .semicolon ";")

def sumTree : Tree :=
  let operand (name : String) := .node .nameRef {} [.leaf .ident name]
  let product := .node .binaryExpr {} [operand "b", .leaf .star "*", operand "c"]
  .node .binaryExpr {} [operand "a", .leaf .plus "+", product]

theorem parsed_grouped_sum : ∃ (p : Parser) (d : Document), table = .ok p.language.table ∧
    p.parse "int x=a+b*c;" = .ok d ∧ d.diagnostics = [] ∧
      ∃ u ∈ d.root.nodes, u.plain = sumTree ∧ u.Grouped := by
  obtain ⟨t, built⟩ := exists_table
  have settled : sumPlan.settled meetings (.ofGrammar grammar) grammar = true := by decide +kernel
  have tokens : (Token.readAll "int x=a+b*c;").map Token.label = sumPlan.labels := by
    with_unfolding_all decide
  obtain ⟨d, parsed, quiet, root⟩ :=
    exists_parse_of_plan (p := ⟨⟨"metal", t, 0⟩, {}⟩) built settled tokens
  have inside : (Tree.node .sourceFile {} (sumPlan.forest grammar)).nodes[5]? = some sumTree := by
    with_unfolding_all rfl
  obtain ⟨u, inside, plain⟩ := exists_node_of_plain root (List.mem_of_getElem? inside)
  exact ⟨_, d, built, parsed, quiet, u, inside, plain, parsed_grouped built parsed quiet u inside⟩

end Metal

end ShaderTree
