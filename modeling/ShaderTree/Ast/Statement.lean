import ShaderTree.Ast.Expression

/-!
Statements and their parts. The parts of a loop header are told apart by its punctuation, since any
of them may be left out.
-/
namespace ShaderTree.Ast

def isStatement : Kind → Bool
  | .compoundStatement | .declaration | .expressionStatement | .ifStatement | .whileStatement
  | .doStatement | .forStatement | .switchStatement | .caseLabel | .breakStatement
  | .continueStatement | .returnStatement => true
  | _ => false

def statements (s : Site) : List Site := childrenIn s isStatement

def statement? (s : Site) : Option Site := (statements s).head?

inductive Statement where
  /-- Closed when both braces are in the text; the returns are those at any depth. -/
  | compound (isClosed : Bool) (statements returns : List Site)
  | declaration
  | expression (value : Option Site)
  | ifThen (condition whenTrue whenFalse : Option Site)
  | whileLoop (condition body : Option Site)
  | doLoop (body condition : Option Site)
  | forLoop (init condition step body : Option Site)
  | switchOn (condition : Option Site) (cases : List Site) (body : Option Site)
  | caseLabel (value : Option Site) (isDefault : Bool)
  | breakLoop
  | continueLoop
  | returnValue (value : Option Site)

namespace Statement

def view? (s : Site) : Option Statement :=
  match s.kind with
  | .compoundStatement =>
    some (compound (hasToken s .lBrace && hasToken s .rBrace) (Ast.statements s)
      (s.descendants.filter fun n => n.kind = .returnStatement))
  | .declaration => some declaration
  | .expressionStatement => some (expression (expression? s))
  | .ifStatement =>
    let (before, after) := splitAtToken s .elseKw isStatement
    some (ifThen (expression? s) before.head? after.head?)
  | .whileStatement => some (whileLoop (expression? s) (statement? s))
  | .doStatement => some (doLoop (statement? s) (expression? s))
  | .forStatement =>
    let (header, body) := splitAtToken s .rParen isStatement
    let (before, after) := splitAtToken s .semicolon isExpression
    some (forLoop header.head? before.head? after.head? body.head?)
  | .switchStatement =>
    let body := childOf? s .compoundStatement
    some (switchOn (expression? s) ((body.map fun b => childrenOf b .caseLabel).getD []) body)
  | .caseLabel => some (caseLabel (expression? s) (hasToken s .defaultKw))
  | .breakStatement => some breakLoop
  | .continueStatement => some continueLoop
  | .returnStatement => some (returnValue (expression? s))
  | _ => none

end Statement

end ShaderTree.Ast
