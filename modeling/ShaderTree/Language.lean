import ShaderTree.Metal.Grammar
import ShaderTree.Table.Build
import ShaderTree.Table.Compatible

/-!
Languages: named tables that a parser can be given. Each table made has an identity of its own, so
that a tree is never reused under a table that it was not made with.
-/
namespace ShaderTree

structure Language where
  name : String
  table : Table
  identity : Nat

namespace Language

/-- Languages are equal if name and table are, whichever table was made first. -/
def sameAs (a b : Language) : Bool := a.name = b.name && a.table = b.table

def ofGrammar (name : String) (identity : Nat) (g : Grammar) : Except GrammarError Language := do
  return ⟨name, ← Table.build g, identity⟩

end Language

def Metal.table : Except GrammarError Table := Table.build Metal.grammar

/-- The built-in language; its table has the identity 0. -/
def Metal.language : Except GrammarError Language := Metal.table.map fun t => ⟨"metal", t, 0⟩

end ShaderTree
