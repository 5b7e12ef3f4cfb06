import ShaderTree.Fault
import ShaderTree.Text.EditMap
import ShaderTree.Token
import ShaderTree.Tree.Document

/-!
Nodes of an old tree that stand in for the tokens ahead. A node is taken as it is when the parse
would have made it again: no edit touches it, it was started in the state that the parser is in,
its leaves are the tokens ahead, and the token behind it is of the kind that it was closed on.
-/
namespace ShaderTree

structure Reuse where
  /-- Nodes of the old tree that have text, with their offsets, outer nodes first. -/
  nodes : List (Nat × Tree)
  length : Nat
  map : EditMap

structure Reusable where
  node : Tree
  count : Nat
  next : Nat

namespace Reuse

def ofDocument (old : Document) (map : EditMap) : Reuse :=
  { nodes := (old.root.placedNodes 0).filter fun n => n.2.size ≠ 0
    length := old.root.size
    map := map }

/-- Old nodes that start where a new offset comes from, largest first. -/
def candidates (r : Reuse) (offset : Nat) : Except Fault (List (Nat × Tree)) := do
  match ← r.map.toOld? offset with
  | none => return []
  | some old =>
    if r.length < old then throw .outsideTree else return r.nodes.filter fun n => n.1 = old

def leavesMatch (leaves : List (Kind × String)) (tokens : List Token) : Bool :=
  (tokens.take leaves.length).map (fun t => (t.kind, t.text)) = leaves

def followKind (tokens : List Token) : Kind :=
  match tokens.find? (!·.kind.isTrivia) with
  | some t => t.kind
  | none => .eof

def check? (r : Reuse) (gotoKind : Kind → Option Nat) (top : Nat) (tokens : List Token)
    (candidate : Nat × Tree) : Option Reusable := do
  let (start, node) := candidate
  let record ← node.record?
  guard (record.state = top)
  let next ← gotoKind node.kind
  guard (!r.map.touches start (start + node.size))
  let leaves := node.leaves
  guard (leavesMatch leaves tokens)
  guard (followKind (tokens.drop leaves.length) = record.follow)
  return ⟨node, leaves.length, next⟩

/-- The largest old node that can stand for the tokens ahead. -/
def find? (r : Reuse) (gotoKind : Kind → Option Nat) (top : Nat) (tokens : List Token) :
    Except Fault (Option Reusable) :=
  match tokens with
  | [] => .ok none
  | t :: _ => do
    let candidates ← r.candidates t.start
    return candidates.findSome? (r.check? gotoKind top tokens)

end Reuse

end ShaderTree
