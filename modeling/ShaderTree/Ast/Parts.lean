import ShaderTree.Tree.Site

/-!
Direct parts of a node, by kind. Recovered trees may lack any part, so single parts are optional.
-/
namespace ShaderTree.Ast

def token? (s : Site) (k : Kind) : Option Site := s.childLeaves.find? fun c => c.kind = k

def hasToken (s : Site) (k : Kind) : Bool := (token? s k).isSome

/-- The first direct token that is neither blank nor comment. -/
def firstToken? (s : Site) : Option Site := s.childLeaves.find? fun c => !c.kind.isTrivia

def firstTokenKind? (s : Site) : Option Kind := (firstToken? s).map (·.kind)

def childrenIn (s : Site) (p : Kind → Bool) : List Site := s.childNodes.filter fun c => p c.kind

def childrenOf (s : Site) (k : Kind) : List Site := childrenIn s fun x => x = k

def childOf? (s : Site) (k : Kind) : Option Site := (childrenOf s k).head?

def identifier? (s : Site) : Option String := (token? s .ident).map (·.text)

def segments (s : Site) : List String :=
  (s.childLeaves.filter fun c => c.kind = .ident).map (·.text)

def path (s : Site) : String := "::".intercalate (segments s)

def firstMeaning? (s : Site) (meaning : Kind → Option α) : Option α :=
  s.childLeaves.findSome? fun c => meaning c.kind

def hasErrors (s : Site) : Bool := s.descendants.any (·.kind.isError)

/-- Child nodes of a class before and after the first token of a kind. -/
def splitAtToken (s : Site) (k : Kind) (p : Kind → Bool) : List Site × List Site :=
  let isNode (c : Site) : Bool := c.isNode && p c.kind
  let isMark (c : Site) : Bool := c.isLeaf && c.kind = k
  ((s.children.takeWhile fun c => !isMark c).filter isNode,
    (s.children.dropWhile fun c => !isMark c).filter isNode)

end ShaderTree.Ast
