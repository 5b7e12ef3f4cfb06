import ShaderTree.Table.Basic

/-!
The plain machine of a table, without trees and repairs: it reads terminals and keeps a stack of
states, top first, with the start state at the bottom.
-/
namespace ShaderTree.Table

def reduceStates (t : Table) (production : Nat) (states : List Nat) : Option (List Nat) := do
  let r ← t.reductions[production]?
  let below := states.drop r.length
  let base ← below.head?
  let next ← t.goto? base r.lhs
  return next :: below

/-- Runs on terminals until the table accepts, with at most `fuel` actions. Gives the productions
reduced, in their order. -/
def drive (t : Table) : Nat → List Nat → List Kind → Option (List Nat)
  | fuel + 1, top :: below, k :: input =>
    match t.action top k with
    | .shift next => drive t fuel (next :: top :: below) input
    | .reduce p => do
      let after ← t.reduceStates p (top :: below)
      let later ← drive t fuel after (k :: input)
      return p :: later
    | .accept => some []
    | .error => none
  | _, _, _ => none

end ShaderTree.Table
