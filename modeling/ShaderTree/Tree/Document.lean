import ShaderTree.Diagnostic.Basic
import ShaderTree.Tree.Basic

/-!
What a parse gives: the tree over its text, the diagnostics in the order of their places, and the
identity of the table that made it.
-/
namespace ShaderTree

structure Document where
  root : Tree
  text : String
  diagnostics : List Diagnostic
  table : Nat

namespace Document

def lineIndex (d : Document) : LineIndex := .ofText d.text

def isLossless (d : Document) : Bool := d.root.text = d.text

/-- Same text, same tree up to marks, same diagnostics. -/
def sameAs (a b : Document) : Bool :=
  a.text = b.text && a.root.sameShape b.root && a.diagnostics = b.diagnostics

/-- Whether the nodes are one object. -/
def isSameNode (a b : Tree) : Bool :=
  match a.mark?.bind (·.serial), b.mark?.bind (·.serial) with
  | some m, some n => m = n
  | _, _ => false

def serials (d : Document) : List Nat := d.root.nodes.filterMap fun t => t.mark?.bind (·.serial)

def sharedNodes (a b : Document) : Nat := a.serials.countP b.serials.contains

mutual

def sharedRootsIn (known : List Nat) (offset : Nat) : Tree → List (Nat × Tree)
  | .leaf .. => []
  | .node k m cs =>
    if m.serial.any known.contains then [(offset, .node k m cs)]
    else sharedRootsAll known offset cs

def sharedRootsAll (known : List Nat) (offset : Nat) : List Tree → List (Nat × Tree)
  | [] => []
  | t :: ts => sharedRootsIn known offset t ++ sharedRootsAll known (offset + t.size) ts

end

/-- The topmost nodes of `a` that are also nodes of `b`, with their offsets. -/
def sharedRoots (a b : Document) : List (Nat × Tree) := sharedRootsIn b.serials 0 a.root

end Document

end ShaderTree
