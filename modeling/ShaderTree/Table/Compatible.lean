import ShaderTree.IndexSet
import ShaderTree.Table.Basic

/-!
Which tables can be driven without leaving them. Besides the sizes and the bounds of all numbers in
a table, every reduction has to land on a goto: walking back over the transitions from a state with
a reduction as many steps as its production is long never passes the start state early and ends in
states with a goto for the production's nonterminal.
-/
namespace ShaderTree

inductive Incompatibility where
  | version (found : Nat)
  | kinds (found : Nat)
  | malformed
  deriving DecidableEq

def Incompatibility.message : Incompatibility → String
  | version found =>
    s!"incompatible table version {found}, expected {Table.oldestVersion}..={Table.currentVersion}"
  | kinds found =>
    s!"table was built for {found} syntax kinds, this parser has {Kind.count}"
  | malformed => "parse table is malformed"

namespace Table

def successors (row : Row) : List Nat :=
  row.actions.toList.filterMap (fun
    | .shift next => some next
    | _ => none) ++ row.gotos.toList.filterMap id

def fitsAction (t : Table) : Action → Bool
  | .shift next => next < t.stateCount
  | .reduce p => p < t.reductions.size
  | .error | .accept => true

def fitsRow (t : Table) (row : Row) : Bool :=
  row.actions.size == Kind.terminalCount && row.gotos.size == t.nonterminalCount
    && row.actions.all t.fitsAction && row.gotos.all fun target => target.all (· < t.stateCount)

def predecessors (t : Table) : Array IndexSet :=
  (List.range t.stateCount).foldl (fun sets state =>
    match t.rows[state]? with
    | none => sets
    | some row => (successors row).foldl (fun sets next => sets.modify next (·.insert state)) sets)
    (Array.replicate t.stateCount .empty)

def stepBack (t : Table) (back : Array IndexSet) (s : IndexSet) : IndexSet :=
  (s.below t.stateCount).foldl (fun u i => u.union (back[i]?.getD .empty)) .empty

/-- Whether the walk back from a set of states meets the start state only at its end, and ends in
states with a goto for the nonterminal. -/
def landsOnGoto (t : Table) (back : Array IndexSet) (lhs : Nat) : Nat → IndexSet → Bool
  | 0, s => (s.below t.stateCount).all fun i => (t.goto? i lhs).isSome
  | n + 1, s => !s.mem 0 && landsOnGoto t back lhs n (t.stepBack back s)

def reduced (row : Row) : List Nat :=
  (row.actions.toList.filterMap fun
    | .reduce p => some p
    | _ => none).eraseDups

def reductionsLand (t : Table) : Bool :=
  let back := t.predecessors
  (List.range t.stateCount).all fun state =>
    (t.rows[state]?.map reduced |>.getD []).all fun p =>
      match t.reductions[p]? with
      | some r => t.landsOnGoto back r.lhs r.length (IndexSet.empty.insert state)
      | none => false

def isWellFormed (t : Table) : Bool :=
  0 < t.stateCount && t.rows.all t.fitsRow && t.reductions.all (·.lhs < t.nonterminalCount)
    && t.reductionsLand

def checkKinds (version kindCount : Nat) : Except Incompatibility Unit := do
  if version < oldestVersion ∨ currentVersion < version then throw (.version version)
  if kindCount ≠ Kind.count then throw (.kinds kindCount)

def checkCompatible (t : Table) : Except Incompatibility Unit := do
  checkKinds t.version t.kindCount
  if !t.isWellFormed then throw .malformed

end Table

end ShaderTree
