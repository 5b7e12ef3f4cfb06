import ShaderTree.Text.EditMap
import ShaderTree.Token
import ShaderTree.Tree.Document
import ShaderTree.Tree.Site

/-!
Tokens of an edited text from those of the old one: the old tokens up to the line of the first
change, tokens read afresh from there, and the old ones again as soon as a token behind the last
change ends where an old one starts.
-/
namespace ShaderTree.Relex

structure OldToken where
  start : Nat
  kind : Kind
  length : Nat

def OldToken.stop (t : OldToken) : Nat := t.start + t.length

def oldTokens (old : Document) : List OldToken :=
  ((Site.root old.root).leaves.filter fun l => l.start < l.stop).map fun l =>
    ⟨l.start, l.kind, l.stop - l.start⟩

def carryOver (text : List Char) (start : Nat) (p : Position) :
    List OldToken → Except Fault (List Token)
  | [] => .ok []
  | t :: ts =>
    match Text.cut? t.length text with
    | none => .error .badCut
    | some (own, rest) => do
      let q := p.advance own
      let tail ← carryOver rest (start + t.length) q ts
      return ⟨t.kind, String.ofList own, start, ⟨p, q⟩⟩ :: tail

/-- Reading starts at the token that holds the line break in front of the first change, since
nothing before it can take in changed text. -/
def restartOffset (old : Document) (firstChange : Nat) : Except Fault Nat := do
  let index := old.lineIndex
  let lineStart := (index.lineStart? (index.lineCol firstChange).line).getD 0
  if lineStart = 0 then return 0
  let tokens ← (Site.root old.root).leavesAt (lineStart - 1)
  return match tokens.getLast? with
    | some t => t.start
    | none => 0

/-- Keeps fresh tokens up to the first one behind the last change that ends where an old token
starts, and carries the old tokens over from there. -/
def rejoin (map : EditMap) (lastChange : Nat) (old : List OldToken) (rest : List Char) :
    List Token → Except Fault (List Token)
  | [] => .ok []
  | t :: ts => do
    let behind := rest.drop t.text.length
    let origin ← (if t.stop < lastChange then pure none else map.toOld? t.stop)
    let resumed := match origin with
      | none => []
      | some oldEnd => old.dropWhile (·.start ≠ oldEnd)
    let tail ← match resumed with
      | [] => rejoin map lastChange old behind ts
      | _ => carryOver behind t.stop t.span.stop resumed
    return t :: tail

def tokens (old : Document) (map : EditMap) (newText : String) : Except Fault (List Token) :=
  match map.firstChange?, map.lastChange? with
  | some firstChange, some lastChange => do
    let start ← restartOffset old firstChange
    let all := oldTokens old
    let kept := all.takeWhile (·.stop ≤ start)
    let before ← carryOver newText.toList 0 .zero kept
    let rest := (Text.cutFrom start newText.toList).2
    let after ← rejoin map lastChange (all.drop kept.length) rest (Token.readFrom newText start)
    return before ++ after
  | _, _ => .ok (Token.readFrom newText 0)

end ShaderTree.Relex
