import ShaderTree.Ast.Parts

/-!
Expressions and their parts. A view shows one level: the operator, and the places of the operands.
-/
namespace ShaderTree.Ast

def isExpression : Kind → Bool
  | .assignmentExpr | .conditionalExpr | .binaryExpr | .unaryExpr | .postfixExpr | .castExpr
  | .callExpr | .constructorExpr | .indexExpr | .fieldExpr | .parenExpr | .sizeofExpr | .literal
  | .nameRef => true
  | _ => false

def isType : Kind → Bool
  | .builtinType | .namedType | .structSpecifier | .enumSpecifier => true
  | _ => false

def expressions (s : Site) : List Site := childrenIn s isExpression

def expression? (s : Site) : Option Site := (expressions s).head?

def type? (s : Site) : Option Site := (childrenIn s isType).head?

def arguments (s : Site) : List Site :=
  match childOf? s .argList with
  | some list => expressions list
  | none => []

inductive BinaryOp where
  | logicalOr | logicalAnd | bitOr | bitXor | bitAnd
  | equal | notEqual | less | greater | lessEqual | greaterEqual
  | shiftLeft | shiftRight | add | subtract | multiply | divide | remainder
  deriving DecidableEq

namespace BinaryOp

/-- The operator that starts with a token; a right shift starts with a joint `>`. -/
def ofKind? : Kind → Option BinaryOp
  | .pipePipe => some logicalOr
  | .ampAmp => some logicalAnd
  | .pipe => some bitOr
  | .caret => some bitXor
  | .amp => some bitAnd
  | .eqEq => some equal
  | .bangEq => some notEqual
  | .lt => some less
  | .gt => some greater
  | .ltEq => some lessEqual
  | .gtEq => some greaterEqual
  | .shl => some shiftLeft
  | .gtJoint => some shiftRight
  | .plus => some add
  | .minus => some subtract
  | .star => some multiply
  | .slash => some divide
  | .percent => some remainder
  | _ => none

def text : BinaryOp → String
  | logicalOr => "||"
  | logicalAnd => "&&"
  | bitOr => "|"
  | bitXor => "^"
  | bitAnd => "&"
  | equal => "=="
  | notEqual => "!="
  | less => "<"
  | greater => ">"
  | lessEqual => "<="
  | greaterEqual => ">="
  | shiftLeft => "<<"
  | shiftRight => ">>"
  | add => "+"
  | subtract => "-"
  | multiply => "*"
  | divide => "/"
  | remainder => "%"

def isComparison : BinaryOp → Bool
  | equal | notEqual | less | greater | lessEqual | greaterEqual => true
  | _ => false

end BinaryOp

inductive LiteralKind where
  | int | float | string | char | bool
  deriving DecidableEq

def LiteralKind.ofKind? : Kind → Option LiteralKind
  | .intNumber => some int
  | .floatNumber => some float
  | .string => some string
  | .char => some char
  | .trueKw | .falseKw => some bool
  | _ => none

def LiteralKind.label : LiteralKind → String
  | int => "Int"
  | float => "Float"
  | string => "String"
  | char => "Char"
  | bool => "Bool"

inductive Expression where
  | assignment (op : Option Kind) (lhs rhs : Option Site)
  | conditional (condition whenTrue whenFalse : Option Site)
  | binary (op : Option BinaryOp) (lhs rhs : Option Site)
  | unary (op : Option Kind) (operand : Option Site)
  | postfixed (op : Option Kind) (operand : Option Site)
  /-- The keyword is missing in a cast written with brackets. -/
  | cast (keyword : Option Kind) (type operand : Option Site)
  | call (callee : Option Site) (arguments : List Site)
  | construct (type : Option Site) (arguments : List Site)
  | index (base index : Option Site)
  | field (base : Option Site) (isArrow : Bool) (name : Option String)
  | paren (inner : Option Site)
  | sizeOf (type : Option Site)
  | literal (kind : Option LiteralKind) (token : Option Site)
  | name (segments : List String)

namespace Expression

def operand? (s : Site) (i : Nat) : Option Site := (expressions s)[i]?

def view? (s : Site) : Option Expression :=
  match s.kind with
  | .assignmentExpr => some (assignment (firstTokenKind? s) (operand? s 0) (operand? s 1))
  | .conditionalExpr => some (conditional (operand? s 0) (operand? s 1) (operand? s 2))
  | .binaryExpr =>
    some (binary ((firstTokenKind? s).bind BinaryOp.ofKind?) (operand? s 0) (operand? s 1))
  | .unaryExpr => some (unary (firstTokenKind? s) (operand? s 0))
  | .postfixExpr => some (postfixed (firstTokenKind? s) (operand? s 0))
  | .castExpr =>
    some (cast ((firstTokenKind? s).filter Kind.isKeyword) (type? s) (operand? s 0))
  | .callExpr => some (call (operand? s 0) (Ast.arguments s))
  | .constructorExpr => some (construct (childOf? s .builtinType) (Ast.arguments s))
  | .indexExpr => some (index (operand? s 0) (operand? s 1))
  | .fieldExpr => some (field (operand? s 0) (hasToken s .arrow) (identifier? s))
  | .parenExpr => some (paren (operand? s 0))
  | .sizeofExpr => some (sizeOf (type? s))
  | .literal => some (literal (firstMeaning? s LiteralKind.ofKind?) (firstToken? s))
  | .nameRef => some (name (segments s))
  | _ => none

def isCompound (op : Option Kind) : Bool := op.any (· ≠ .eq)

def calleeName? (s : Site) : Option String :=
  (operand? s 0).bind fun callee => if callee.kind = .nameRef then some (path callee) else none

/-- Whether a member name can select vector components: one to four letters of one of the sets. -/
def isSwizzle (name : String) : Bool :=
  let letters := name.toList
  1 ≤ letters.length && letters.length ≤ 4
    && (letters.all ("xyzw".toList.contains ·) || letters.all ("rgba".toList.contains ·))

def references (s : Site) : List (String × ByteRange) :=
  (s.descendants.filter fun n => n.kind = .nameRef).map fun n => (path n, n.range)

/-- What is left when the brackets around an expression are taken away. -/
def unparenthesizedIn : Nat → Site → Site
  | 0, s => s
  | fuel + 1, s =>
    if s.kind = .parenExpr then
      match operand? s 0 with
      | some inner => unparenthesizedIn fuel inner
      | none => s
    else s

def unparenthesized (s : Site) : Site := unparenthesizedIn (Site.heightOf s.tree) s

def digit? (c : Char) : Option Nat :=
  if c.isDigit then some (c.toNat - '0'.toNat)
  else if 'a' ≤ c && c ≤ 'f' then some (c.toNat - 'a'.toNat + 10)
  else if 'A' ≤ c && c ≤ 'F' then some (c.toNat - 'A'.toNat + 10)
  else none

/-- Value of a numeral; `none` without digits, at a wrong digit, or past 32 bits. -/
def numeral? (base : Nat) (digits : List Char) : Option Nat := do
  guard (!digits.isEmpty)
  let value ← digits.foldlM (fun n c => do
    let d ← digit? c
    guard (d < base)
    return n * base + d) 0
  guard (value < Nat.pow 2 32)
  return value

/-- Value of a decimal or hexadecimal integer token, with or without unsigned suffix. -/
def integerValue? (token : Site) : Option Nat :=
  if token.kind ≠ .intNumber then none
  else
    let isSuffix (c : Char) : Bool := c = 'u' || c = 'U'
    match (token.text.toList.reverse.dropWhile isSuffix).reverse with
    | '0' :: 'x' :: digits => numeral? 16 digits
    | '0' :: 'X' :: digits => numeral? 16 digits
    | digits => numeral? 10 digits

def boolValue? (token : Site) : Option Bool :=
  match token.kind with
  | .trueKw => some true
  | .falseKw => some false
  | _ => none

end Expression

end ShaderTree.Ast
