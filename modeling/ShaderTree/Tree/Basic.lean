import ShaderTree.Kind

/-!
Lossless syntax trees: leaves are tokens with their text, blanks and comments included, so the texts
of the leaves put together are the source. A node carries a mark that says where it comes from;
two trees with the same shape may differ in their marks.
-/
namespace ShaderTree

/-- How a node was made: the state of the parser in front of it, and the kind of token behind it. -/
structure Record where
  state : Nat
  follow : Kind
  deriving DecidableEq

structure Mark where
  /-- Number of the node among the nodes made, `none` before it is numbered. -/
  serial : Option Nat := none
  /-- Kept for nodes with text and without repairs. -/
  record : Option Record := none

inductive Tree where
  | leaf (kind : Kind) (text : String)
  | node (kind : Kind) (mark : Mark) (children : List Tree)

instance : Inhabited Tree := ⟨.leaf .error ""⟩

namespace Tree

def kind : Tree → Kind
  | leaf k _ => k
  | node k _ _ => k

def isLeaf : Tree → Bool
  | leaf .. => true
  | node .. => false

def children : Tree → List Tree
  | leaf .. => []
  | node _ _ cs => cs

def mark? : Tree → Option Mark
  | leaf .. => none
  | node _ m _ => some m

def record? (t : Tree) : Option Record := t.mark?.bind (·.record)

mutual

def size : Tree → Nat
  | leaf _ text => text.utf8ByteSize
  | node _ _ cs => sizeAll cs

def sizeAll : List Tree → Nat
  | [] => 0
  | t :: ts => size t + sizeAll ts

end

mutual

def leaves : Tree → List (Kind × String)
  | leaf k text => [(k, text)]
  | node _ _ cs => leavesAll cs

def leavesAll : List Tree → List (Kind × String)
  | [] => []
  | t :: ts => leaves t ++ leavesAll ts

end

def text (t : Tree) : String := String.join (t.leaves.map (·.2))

mutual

def nodes : Tree → List Tree
  | leaf .. => []
  | node k m cs => node k m cs :: nodesAll cs

def nodesAll : List Tree → List Tree
  | [] => []
  | t :: ts => nodes t ++ nodesAll ts

end

mutual

/-- Same kinds, same texts, same shape; marks do not matter. -/
def sameShape : Tree → Tree → Bool
  | leaf k s, leaf l u => k = l && s = u
  | node k _ cs, node l _ ds => k = l && sameShapes cs ds
  | _, _ => false

def sameShapes : List Tree → List Tree → Bool
  | [], [] => true
  | t :: ts, u :: us => sameShape t u && sameShapes ts us
  | _, _ => false

end

mutual

/-- Numbers the nodes that have no number yet, from `next` on. -/
def numberFrom (next : Nat) : Tree → Tree × Nat
  | leaf k s => (leaf k s, next)
  | node k m cs =>
    match m.serial with
    | some n =>
      (node k { m with serial := some n } cs, next)
    | none =>
      let (cs, after) := numberAllFrom (next + 1) cs
      (node k { m with serial := some next } cs, after)

def numberAllFrom (next : Nat) : List Tree → List Tree × Nat
  | [] => ([], next)
  | t :: ts =>
    let (t, next) := numberFrom next t
    let (ts, next) := numberAllFrom next ts
    (t :: ts, next)

end

mutual

def placedNodes (offset : Nat) : Tree → List (Nat × Tree)
  | leaf .. => []
  | node k m cs => (offset, node k m cs) :: placedNodesAll offset cs

def placedNodesAll (offset : Nat) : List Tree → List (Nat × Tree)
  | [] => []
  | t :: ts => placedNodes offset t ++ placedNodesAll (offset + t.size) ts

end

@[simp] theorem sizeAll_append (ts us : List Tree) :
    sizeAll (ts ++ us) = sizeAll ts + sizeAll us := by
  induction ts with
  | nil => simp [sizeAll]
  | cons t ts ih => simp [sizeAll, ih, Nat.add_assoc]

@[simp] theorem leavesAll_append (ts us : List Tree) :
    leavesAll (ts ++ us) = leavesAll ts ++ leavesAll us := by
  induction ts with
  | nil => simp [leavesAll]
  | cons t ts ih => simp [leavesAll, ih]

@[simp] theorem nodesAll_append (ts us : List Tree) :
    nodesAll (ts ++ us) = nodesAll ts ++ nodesAll us := by
  induction ts with
  | nil => simp [nodesAll]
  | cons t ts ih => simp [nodesAll, ih]

end Tree

end ShaderTree
