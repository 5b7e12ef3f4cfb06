import ShaderTree.Text.Bytes

/-!
Line and column positions, both from zero, columns in bytes. Moving over a text is moving over its
characters one by one, so a position depends only on the text before it.
-/
namespace ShaderTree

structure Position where
  line : Nat
  column : Nat
  deriving DecidableEq, Inhabited

namespace Position

def zero : Position := ⟨0, 0⟩

def next (p : Position) (c : Char) : Position :=
  if c = '\n' then ⟨p.line + 1, 0⟩ else ⟨p.line, p.column + c.utf8Size⟩

def advance (p : Position) (cs : List Char) : Position := cs.foldl next p

/-- Position of a byte of the text, of its end for a greater offset. -/
def ofOffset? (text : String) (offset : Nat) : Option Position :=
  (Text.cut? (min offset text.utf8ByteSize) text.toList).map fun (before, _) => zero.advance before

def le (p q : Position) : Bool := p.line < q.line || p.line == q.line && p.column ≤ q.column

theorem advance_append (p : Position) (a b : List Char) :
    p.advance (a ++ b) = (p.advance a).advance b := by simp [advance]

end Position

structure Span where
  start : Position
  stop : Position
  deriving DecidableEq, Inhabited

/-- Both ends belong to the span. -/
def Span.contains (s : Span) (p : Position) : Bool := s.start.le p && p.le s.stop

end ShaderTree
