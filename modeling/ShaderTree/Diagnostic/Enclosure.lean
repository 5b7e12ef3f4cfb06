import ShaderTree.Kind

/-!
What a place in the source is enclosed by: the delimiter opened last and not closed yet.
-/
namespace ShaderTree

inductive Enclosure where
  | topLevel
  | block
  | parens
  | brackets
  | attr
  deriving DecidableEq, Inhabited

namespace Enclosure

def label : Enclosure → String
  | topLevel => "TopLevel"
  | block => "Block"
  | parens => "Parens"
  | brackets => "Brackets"
  | attr => "Attribute"

def openedBy? : Kind → Option Enclosure
  | .lBrace => some block
  | .lParen => some parens
  | .lBracket => some brackets
  | .lAttr => some attr
  | _ => none

def closer? : Enclosure → Option Kind
  | topLevel => none
  | block => some .rBrace
  | parens => some .rParen
  | brackets | attr => some .rBracket

/-- How many closing tokens it takes: an attribute ends with two brackets. -/
def closerCount : Enclosure → Nat
  | topLevel => 0
  | attr => 2
  | _ => 1

def description : Enclosure → String
  | topLevel => "at top level"
  | block => "in block"
  | parens => "in parentheses"
  | brackets => "in brackets"
  | attr => "in attribute"

end Enclosure

end ShaderTree
