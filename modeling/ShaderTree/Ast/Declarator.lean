import ShaderTree.Ast.Parts

/-!
Declarators nest: pointers, references and arrays wrap the declarator of what they lead to. The
name is found by going down declarators only, never into parameters or array bounds.
-/
namespace ShaderTree.Ast

/-- Declarators around another declarator, without parameters of their own. -/
def isWrapper : Kind → Bool
  | .pointerDeclarator | .referenceDeclarator | .arrayDeclarator => true
  | _ => false

def isNamed (k : Kind) : Bool := isWrapper k || k = .functionDeclarator

def declaredNameIn : Nat → Site → Option Site
  | 0, _ => none
  | fuel + 1, s =>
    match s.childNodes.find? fun c => c.kind = .name || isNamed c.kind with
    | none => none
    | some c => if c.kind = .name then some c else declaredNameIn fuel c

def declaredName? (s : Site) : Option Site := declaredNameIn (Site.heightOf s.tree) s

/-- Whether the declarators below a node include one of a kind; function declarators are not
entered. -/
def declaresIn (k : Kind) : Nat → Site → Bool
  | 0, _ => false
  | fuel + 1, s =>
    s.childNodes.any fun c => c.kind = k || isWrapper c.kind && declaresIn k fuel c

def declares (s : Site) (k : Kind) : Bool := declaresIn k (Site.heightOf s.tree) s

end ShaderTree.Ast
