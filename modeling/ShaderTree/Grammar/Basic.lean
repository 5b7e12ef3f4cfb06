import ShaderTree.Kind

/-!
Context-free grammars over the token kinds. A nonterminal either names the kind of tree node that it
becomes or is hidden, and then its children stand in the node around it. Precedence levels settle
conflicts: a later level binds tighter, and a production takes the level it is given, or else that
of its last terminal that has one.
-/
namespace ShaderTree

inductive Symbol where
  | terminal (kind : Kind)
  | nonterminal (index : Nat)
  deriving DecidableEq

inductive Associativity where
  | left
  | right
  | nonassoc
  deriving DecidableEq

structure Nonterminal where
  name : String
  /-- Kind of the tree node, `none` for a hidden nonterminal. -/
  node? : Option Kind

namespace Nonterminal

def node (kind : Kind) : Nonterminal := ⟨kind.label, some kind⟩

def hidden (name : String) : Nonterminal := ⟨name, none⟩

end Nonterminal

structure Level where
  associativity : Associativity
  tokens : List Kind

structure Production where
  lhs : Nat
  rhs : List Symbol
  level? : Option Nat := none

structure Grammar where
  nonterminals : Array Nonterminal
  levels : Array Level
  productions : Array Production
  start : Nat

structure Precedence where
  level : Nat
  associativity : Associativity

namespace Grammar

def nonterminalName (g : Grammar) (i : Nat) : String :=
  match g.nonterminals[i]? with
  | some n => n.name
  | none => ""

def precedenceOfLevel? (g : Grammar) (level : Nat) : Option Precedence :=
  g.levels[level]?.map fun l => ⟨level, l.associativity⟩

/-- Level of a token: the last one that lists it. -/
def tokenPrecedence? (g : Grammar) (k : Kind) : Option Precedence := do
  let level ← (List.range g.levels.size).reverse.find? fun i =>
    g.levels[i]?.any (·.tokens.contains k)
  g.precedenceOfLevel? level

def productionPrecedence? (g : Grammar) (index : Nat) : Option Precedence := do
  let p ← g.productions[index]?
  match p.level? with
  | some level => g.precedenceOfLevel? level
  | none => p.rhs.reverse.findSome? fun
    | .terminal k => g.tokenPrecedence? k
    | .nonterminal _ => none

def looserThan (g : Grammar) (index : Nat) : Nat :=
  match g.productionPrecedence? index with
  | none => 0
  | some own => (List.range g.productions.size).countP fun i =>
    (g.productionPrecedence? i).any (·.level < own.level)

def productionsOf (g : Grammar) (i : Nat) : List Nat :=
  (List.range g.productions.size).filter fun p => g.productions[p]?.any (·.lhs = i)

def renderSymbol (g : Grammar) : Symbol → String
  | .terminal k => k.label
  | .nonterminal i => g.nonterminalName i

def renderProduction (g : Grammar) (index : Nat) : String :=
  match g.productions[index]? with
  | none => ""
  | some p =>
    let rhs := if p.rhs.isEmpty then " <empty>"
      else String.join (p.rhs.map fun s => " " ++ g.renderSymbol s)
    g.nonterminalName p.lhs ++ " ->" ++ rhs

end Grammar

end ShaderTree
