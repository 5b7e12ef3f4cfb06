import ShaderTree.Kind

/-!
Parse tables: for each state a row of actions, one for each terminal, and a row of gotos, one for
each nonterminal; and what a reduction has to know about each production.
-/
namespace ShaderTree

inductive Action where
  | error
  | shift (state : Nat)
  | reduce (production : Nat)
  | accept
  deriving DecidableEq, Inhabited

structure Reduction where
  lhs : Nat
  length : Nat
  node? : Option Kind
  deriving DecidableEq

structure Row where
  actions : Array Action
  gotos : Array (Option Nat)
  deriving DecidableEq

structure Table where
  version : Nat
  kindCount : Nat
  rows : Array Row
  reductions : Array Reduction
  nonterminalNames : Array String
  deriving DecidableEq

namespace Table

def currentVersion : Nat := 3

def oldestVersion : Nat := 3

def stateCount (t : Table) : Nat := t.rows.size

def nonterminalCount (t : Table) : Nat := t.nonterminalNames.size

def action (t : Table) (state : Nat) (k : Kind) : Action :=
  match t.rows[state]? with
  | some row => row.actions[k.index]?.getD .error
  | none => .error

def goto? (t : Table) (state nonterminal : Nat) : Option Nat :=
  match t.rows[state]? with
  | some row => row.gotos[nonterminal]?.join
  | none => none

def expected (t : Table) (state : Nat) : List Kind :=
  Kind.terminals.filter fun k => t.action state k ≠ .error

/-- The nonterminal that a kind of node is pushed as: the one of the last production for it. -/
def nonterminalOf? (t : Table) (k : Kind) : Option Nat :=
  (t.reductions.toList.reverse.find? fun r => r.node? = some k).map (·.lhs)

/-- A bound on the reductions asked for by one lookahead, if they ever end, on a stack of `depth`
states. A state that comes again above itself, or twice the same nonterminal right above the same
state, repeats for ever; so a chain that ends grows by at most one entry for each state, and each
entry has at most one push above it for each nonterminal. -/
def reductionBound (t : Table) (depth : Nat) : Nat :=
  (depth + 1) * Nat.pow (t.nonterminalCount + 2) (t.stateCount + 2)

end Table

end ShaderTree
