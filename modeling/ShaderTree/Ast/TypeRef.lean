import ShaderTree.Ast.Declarator
import ShaderTree.Ast.Expression

/-!
Types, address spaces, and the attributes, fields and enumerators that come with them.
-/
namespace ShaderTree.Ast

inductive AddressSpace where
  | device | constant | thread | threadgroup | threadgroupImageblock
  deriving DecidableEq

namespace AddressSpace

def ofKind? : Kind → Option AddressSpace
  | .deviceKw => some device
  | .constantKw => some constant
  | .threadKw => some thread
  | .threadgroupKw => some threadgroup
  | .threadgroupImageblockKw => some threadgroupImageblock
  | _ => none

def text : AddressSpace → String
  | device => "device"
  | constant => "constant"
  | thread => "thread"
  | threadgroup => "threadgroup"
  | threadgroupImageblock => "threadgroup_imageblock"

def isShared : AddressSpace → Bool
  | device | constant => true
  | _ => false

def of? (s : Site) : Option AddressSpace := firstMeaning? s ofKind?

end AddressSpace

namespace Attribute

/-- The name may be a keyword or a builtin type, so it is whatever token stands first. -/
def name? (s : Site) : Option String := (firstToken? s).map (·.text)

/-- The only argument, if it is an integer literal. -/
def index? (s : Site) : Option Nat :=
  match arguments s with
  | [a] => if a.kind = .literal then (firstToken? a).bind Expression.integerValue? else none
  | _ => none

def inSpecifier (s : Site) : List Site := childrenOf s .attr

def specifiers (s : Site) : List Site := childrenOf s .attrSpecifier

def all (s : Site) : List Site := (specifiers s).flatMap inSpecifier

def has (s : Site) (name : String) : Bool := (all s).any fun a => name? a = some name

end Attribute

inductive TemplateArgument where
  | type (site : Site)
  | int (text : String)

def templateArguments (list : Site) : List TemplateArgument :=
  list.children.filterMap fun c =>
    if c.isNode then if isType c.kind then some (.type c) else none
    else if c.kind = .intNumber then some (.int c.text)
    else none

inductive TypeRef where
  | builtin (name : Option String) (arguments : Option Site)
  | named (segments : List String) (isQualified : Bool)
  | struct (name : Option String) (fieldList : Option Site)
  | enum (name : Option String) (isScoped : Bool) (base : Option Site) (enumerators : List Site)

namespace TypeRef

def view? (s : Site) : Option TypeRef :=
  match s.kind with
  | .builtinType =>
    some (builtin ((token? s .primitiveType).map (·.text)) (childOf? s .templateArgList))
  | .namedType => some (named (segments s) (hasToken s .colonColon))
  | .structSpecifier => some (struct (identifier? s) (childOf? s .fieldList))
  | .enumSpecifier =>
    some (enum (identifier? s) (hasToken s .classKw) (type? s)
      (((childOf? s .enumeratorList).map fun l => childrenOf l .enumerator).getD []))
  | _ => none

/-- The type without its template arguments; nameless structures and enumerations have none. -/
def name? (s : Site) : Option String :=
  match view? s with
  | some (builtin name _) => name
  | some (named path _) => some ("::".intercalate path)
  | some (struct name _) => name
  | some (enum name ..) => name
  | none => none

/-- Textures, depth textures and samplers live in argument tables and in no address space. -/
def isResource (name : String) : Bool :=
  name.startsWith "texture" || name.startsWith "depth" || name = "sampler"

end TypeRef

namespace Field

/-- The name of a declarator that stands directly in a declaration. -/
def nameOf? (s : Site) : Option Site :=
  if s.kind = .name then some s else if isNamed s.kind then declaredName? s else none

def names (s : Site) : List String := (s.childNodes.filterMap nameOf?).filterMap identifier?

def inList (list : Site) : List Site := childrenOf list .fieldDeclaration

end Field

end ShaderTree.Ast
