import ShaderTree.Ast.Statement
import ShaderTree.Ast.TypeRef

/-!
Items of a source file: functions with their parameters, declarations with their declarators, and
the forms around them.
-/
namespace ShaderTree.Ast

def isItem : Kind → Bool
  | .functionDefinition | .declaration | .usingDeclaration | .aliasDeclaration
  | .namespaceDefinition => true
  | _ => false

def items (s : Site) : List Site := childrenIn s isItem

def declaredText? (s : Site) : Option String := (declaredName? s).bind identifier?

inductive Stage where
  | vertex | fragment | kernel
  deriving DecidableEq

def Stage.ofKind? : Kind → Option Stage
  | .vertexKw => some vertex
  | .fragmentKw => some fragment
  | .kernelKw => some kernel
  | _ => none

def Stage.text : Stage → String
  | vertex => "vertex"
  | fragment => "fragment"
  | kernel => "kernel"

namespace Function

def stage? (s : Site) : Option Stage := firstMeaning? s Stage.ofKind?

/-- The declarator with name and parameters: the first at any depth below the children that are
neither types nor blocks. -/
def declarator? (s : Site) : Option Site :=
  (s.childNodes.filter fun c => c.kind ≠ .compoundStatement && !isType c.kind).findSome? fun c =>
    c.descendants.find? fun n => n.kind = .functionDeclarator

def nameNode? (s : Site) : Option Site := (declarator? s).bind fun d => childOf? d .name

def name? (s : Site) : Option String := (nameNode? s).bind identifier?

def parameters (s : Site) : List Site :=
  match (declarator? s).bind fun d => childOf? d .parameterList with
  | some list => childrenOf list .parameter
  | none => []

def body? (s : Site) : Option Site := childOf? s .compoundStatement

end Function

namespace Parameter

def binding? (s : Site) : Option (String × Nat) :=
  (Attribute.all s).findSome? fun a =>
    match Attribute.name? a with
    | none => none
    | some name =>
      if name = "buffer" ∨ name = "texture" ∨ name = "sampler" then
        (Attribute.index? a).map fun i => (name, i)
      else none

end Parameter

namespace Declaration

def declarators (s : Site) : List Site := childrenOf s .initDeclarator

def names (s : Site) : List String := (declarators s).filterMap declaredText?

def isTypeOnly (s : Site) : Bool := (declarators s).isEmpty

end Declaration

def initializerList? (s : Site) : Option Site := childOf? s .initializerList

/-- All functions of a file, those in namespaces too. -/
def functions (root : Site) : List Site :=
  root.descendants.filter fun n => n.kind = .functionDefinition

def entryPoints (root : Site) : List (Site × Stage) :=
  (functions root).filterMap fun f => (Function.stage? f).map fun stage => (f, stage)

def function? (root : Site) (name : String) : Option Site :=
  (functions root).find? fun f => Function.name? f = some name

end ShaderTree.Ast
