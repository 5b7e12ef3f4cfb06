import ShaderTree.Diagnostic.Basic
import ShaderTree.Lexeme.Basic
import ShaderTree.Text.Position

/-!
Tokens: lexemes with their place in a text. They lie side by side from the start offset to the end
of the text.
-/
namespace ShaderTree

structure Token where
  kind : Kind
  text : String
  start : Nat
  span : Span
  deriving DecidableEq

namespace Token

def stop (t : Token) : Nat := t.start + t.text.utf8ByteSize

def range (t : Token) : ByteRange := ⟨t.start, t.stop⟩

def place (start : Nat) (p : Position) : List Lexeme → List Token
  | [] => []
  | l :: ls =>
    let q := p.advance l.text
    let next := ls.head?.bind (·.text.head?)
    ⟨l.kindBefore next, String.ofList l.text, start, ⟨p, q⟩⟩
      :: place (start + Text.size l.text) q ls

/-- Tokens from a byte offset on; an offset inside a character stands for the end of that
character, one past the end for the end. -/
def readFrom (text : String) (offset : Nat) : List Token :=
  let (before, rest) := Text.cutFrom offset text.toList
  place (Text.size before) (Position.zero.advance before) (Lexeme.joinFailures (Lexeme.split rest))

def readAll (text : String) : List Token := readFrom text 0

def layOut (start : Nat) (p : Position) : List (Kind × String) → List Token
  | [] => []
  | (k, text) :: rest =>
    let q := p.advance text.toList
    ⟨k, text, start, ⟨p, q⟩⟩ :: layOut (start + text.utf8ByteSize) q rest

def diagnostic? (t : Token) : Option Diagnostic :=
  if t.kind ≠ .error then none
  else if t.text.startsWith "/*" then some { code := .unterminatedComment, range := t.range }
  else if t.text.startsWith "\"" then some { code := .unterminatedString, range := t.range }
  else some
    { code := .invalidCharacter
      message := "invalid character `" ++ t.text ++ "`"
      range := t.range }

end Token

end ShaderTree
