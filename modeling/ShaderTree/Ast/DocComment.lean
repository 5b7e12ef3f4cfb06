import ShaderTree.Text.Blank
import ShaderTree.Tree.Site

/-!
The comment directly in front of a node: line comments, or one block comment, with no blank line
between them and the node.
-/
namespace ShaderTree.Ast

/-- A block comment without its marks, leading stars and empty lines. -/
def cleanBlock (cs : List Char) : String :=
  let clean (line : List Char) : List Char :=
    match Text.trim line with
    | '*' :: rest => Text.trimStart rest
    | trimmed => trimmed
  let kept := ((Text.lines cs).map clean).filter fun l => !l.isEmpty
  "\n".intercalate (kept.map String.ofList)

def blockContent (s : String) : List Char :=
  match s.toList with
  | '/' :: '*' :: rest =>
    match rest.reverse with
    | '/' :: '*' :: inside => inside.reverse
    | _ => []
  | _ => []

def lineContent (s : String) : String :=
  String.ofList (Text.trim (s.toList.dropWhile (· = '/')))

def commentsIn : List Site → List String
  | [] => []
  | s :: rest =>
    if s.isNode then []
    else match s.kind with
    | .whitespace => if s.text.toList.count '\n' > 1 then [] else commentsIn rest
    | .lineComment => lineContent s.text :: commentsIn rest
    | .blockComment => [cleanBlock (blockContent s.text)]
    | _ => []

def docComment? (s : Site) : Option String :=
  match (commentsIn s.before).filter fun c => !c.isEmpty with
  | [] => none
  | comments => some ("\n".intercalate comments.reverse)

end ShaderTree.Ast
