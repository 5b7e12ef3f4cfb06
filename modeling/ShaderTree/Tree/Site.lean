import ShaderTree.Fault
import ShaderTree.Text.ByteRange
import ShaderTree.Tree.Basic

/-!
Elements of a tree in their places: with offset and the way up to the root. All questions about
parents, neighbours and ranges are asked of sites.
-/
namespace ShaderTree

/-- A node on the way up, and which of its children the way comes from. -/
structure Frame where
  node : Tree
  start : Nat
  index : Nat

structure Site where
  tree : Tree
  start : Nat
  /-- Innermost first. -/
  above : List Frame

namespace Site

def root (t : Tree) : Site := ⟨t, 0, []⟩

def kind (s : Site) : Kind := s.tree.kind

def stop (s : Site) : Nat := s.start + s.tree.size

def range (s : Site) : ByteRange := ⟨s.start, s.stop⟩

def isLeaf (s : Site) : Bool := s.tree.isLeaf

def isNode (s : Site) : Bool := !s.isLeaf

def text (s : Site) : String := s.tree.text

def placeChildren (parent : Site) (index start : Nat) : List Tree → List Site
  | [] => []
  | t :: ts =>
    ⟨t, start, ⟨parent.tree, parent.start, index⟩ :: parent.above⟩
      :: placeChildren parent (index + 1) (start + t.size) ts

def children (s : Site) : List Site := placeChildren s 0 s.start s.tree.children

def childNodes (s : Site) : List Site := s.children.filter isNode

def childLeaves (s : Site) : List Site := s.children.filter isLeaf

def parent? (s : Site) : Option Site :=
  match s.above with
  | f :: fs => some ⟨f.node, f.start, fs⟩
  | [] => none

/-- Elements in front of this one under the same parent, nearest first. -/
def before (s : Site) : List Site :=
  match s.above, s.parent? with
  | f :: _, some parent => (parent.children.take f.index).reverse
  | _, _ => []

/-- Elements behind this one under the same parent, nearest first. -/
def after (s : Site) : List Site :=
  match s.above, s.parent? with
  | f :: _, some parent => parent.children.drop (f.index + 1)
  | _, _ => []

mutual

def elementsAt (above : List Frame) (start : Nat) : Tree → List Site
  | .leaf k text => [⟨.leaf k text, start, above⟩]
  | .node k m cs =>
    ⟨.node k m cs, start, above⟩ :: elementsBelow (.node k m cs) start above 0 start cs

def elementsBelow (parent : Tree) (parentStart : Nat) (above : List Frame) (index start : Nat) :
    List Tree → List Site
  | [] => []
  | t :: ts =>
    elementsAt (⟨parent, parentStart, index⟩ :: above) start t
      ++ elementsBelow parent parentStart above (index + 1) (start + t.size) ts

end

def elements (s : Site) : List Site := elementsAt s.above s.start s.tree

def descendants (s : Site) : List Site := s.elements.filter isNode

def leaves (s : Site) : List Site := s.elements.filter isLeaf

/-- Leaves with text that touch an offset: two at the border of two such leaves. -/
def leavesAt (s : Site) (offset : Nat) : Except Fault (List Site) :=
  if s.start ≤ offset ∧ offset ≤ s.stop then
    .ok (s.leaves.filter fun l => l.start < l.stop && l.start ≤ offset && offset ≤ l.stop)
  else .error .outsideTree

/-- Of the children of a node the one that is looked into for a range: for an empty range one
that holds it inside, else the last that ends in front of it, else the first. -/
def childFor? (r : ByteRange) (children : List Site) : Option Site :=
  if r.isEmpty then
    (children.find? fun c => c.start < r.start && r.start < c.stop).or
      ((children.reverse.find? fun c => c.stop ≤ r.start).or children.head?)
  else children.find? fun c => c.range.contains r

def coverWith (r : ByteRange) : Nat → Site → Site
  | 0, s => s
  | fuel + 1, s =>
    match childFor? r s.children with
    | some c => if c.range.contains r then coverWith r fuel c else s
    | none => s

mutual

def heightOf : Tree → Nat
  | .leaf .. => 0
  | .node _ _ cs => heightOfAll cs + 1

def heightOfAll : List Tree → Nat
  | [] => 0
  | t :: ts => max (heightOf t) (heightOfAll ts)

end

/-- The node that covers a range, `none` for a range outside. A leaf stands for its parent. -/
def nodeCovering? (s : Site) (r : ByteRange) : Option Site :=
  if !s.range.contains r then none
  else
    let found := coverWith r (heightOf s.tree) s
    if found.isLeaf then found.parent? else some found

def firstLeafWith : Nat → Site → Option Site
  | _, ⟨.leaf k text, start, above⟩ => some ⟨.leaf k text, start, above⟩
  | 0, _ => none
  | fuel + 1, s => s.children.head?.bind (firstLeafWith fuel)

def firstLeaf? (s : Site) : Option Site := firstLeafWith (heightOf s.tree) s

def lastLeafWith : Nat → Site → Option Site
  | _, ⟨.leaf k text, start, above⟩ => some ⟨.leaf k text, start, above⟩
  | 0, _ => none
  | fuel + 1, s => s.children.getLast?.bind (lastLeafWith fuel)

def lastLeaf? (s : Site) : Option Site := lastLeafWith (heightOf s.tree) s

def descend? (s : Site) : List Nat → Option Site
  | [] => some s
  | i :: path => s.childNodes[i]?.bind (·.descend? path)

end Site

end ShaderTree
