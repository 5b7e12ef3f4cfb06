import ShaderTree.Grammar.Basic
import ShaderTree.IndexSet

/-!
Which nonterminals derive the empty string, and which terminals can start what a nonterminal
derives. Both are computed together as a least fixed point.
-/
namespace ShaderTree

/-- The terminals that can start a string, by index, and whether the string can be empty. -/
structure First where
  terminals : IndexSet
  nullable : Bool
  deriving DecidableEq, Inhabited

namespace First

def empty : First := ⟨.empty, true⟩

def ofSymbols (known : Array First) : List Symbol → First
  | [] => empty
  | .terminal k :: _ => ⟨IndexSet.empty.insert k.index, false⟩
  | .nonterminal i :: rest =>
    match known[i]? with
    | none => ⟨.empty, false⟩
    | some f =>
      if f.nullable then
        let r := ofSymbols known rest
        ⟨f.terminals.union r.terminals, r.nullable⟩
      else ⟨f.terminals, false⟩

def learn (known : Array First) (p : Production) : Array First :=
  let f := ofSymbols known p.rhs
  known.modify p.lhs fun old => ⟨old.terminals.union f.terminals, old.nullable || f.nullable⟩

def saturate (g : Grammar) : Nat → Array First → Array First
  | 0, known => known
  | n + 1, known =>
    let next := g.productions.foldl learn known
    if next = known then known else saturate g n next

/-- First terminals of each nonterminal. Each round but the last adds a terminal or a nullable mark
somewhere, which bounds their number. -/
def ofGrammar (g : Grammar) : Array First :=
  saturate g (g.nonterminals.size * (Kind.terminalCount + 1) + 1)
    (Array.replicate g.nonterminals.size ⟨.empty, false⟩)

end First

end ShaderTree
