import ShaderTree.Text.ByteRange
import ShaderTree.Text.Quoted
import ShaderTree.Tree.Document

/-!
Printed trees: the long form has a line for each node and leaf with its range, indented by depth;
the compact form has the texts of the tokens that count, in brackets.
-/
namespace ShaderTree

namespace Tree

def indent (depth : Nat) : String := String.ofList (List.replicate (2 * depth) ' ')

def heading (depth offset : Nat) (t : Tree) : String :=
  indent depth ++ t.kind.label ++ "@" ++ (ByteRange.mk offset (offset + t.size)).render

mutual

def renderAt (depth offset : Nat) : Tree → String
  | leaf k text => heading depth offset (leaf k text) ++ " " ++ Text.quote text ++ "\n"
  | node k m cs => heading depth offset (node k m cs) ++ "\n" ++ renderAllAt (depth + 1) offset cs

def renderAllAt (depth offset : Nat) : List Tree → String
  | [] => ""
  | t :: ts => renderAt depth offset t ++ renderAllAt depth (offset + t.size) ts

end

def render (t : Tree) : String := renderAt 0 0 t

mutual

/-- The compact form: trivia is left out, and a token without text shows its kind. -/
def compact : Tree → String
  | leaf k text =>
    if k.isTrivia then "" else if text.isEmpty then "<" ++ k.label ++ ">" else text
  | node k _ cs => "(" ++ k.label ++ compactAll cs ++ ")"

def compactAll : List Tree → String
  | [] => ""
  | t :: ts =>
    let skipped := t.isLeaf && t.kind.isTrivia
    (if skipped then "" else " " ++ compact t) ++ compactAll ts

end

end Tree

def Document.render (d : Document) : String :=
  d.root.render ++ String.join (d.diagnostics.map fun x => x.render ++ "\n")

end ShaderTree
