import ShaderTree.Text.Bytes
import ShaderTree.Word

/-!
Text edits. An edit replaces the bytes from `start` to `oldEnd` of the text before it by the bytes
from `start` to `newEnd` of the text after it; in a sequence each edit speaks of the text that the
one before it left.
-/
namespace ShaderTree

structure Edit where
  start : Nat
  oldEnd : Nat
  newEnd : Nat
  deriving DecidableEq

namespace Edit

def replace (start stop length : Nat) : Except Fault Edit :=
  return ⟨start, stop, ← Word.add 64 start length⟩

def insert (offset length : Nat) : Except Fault Edit :=
  return ⟨offset, offset, ← Word.add 64 offset length⟩

def delete (start stop : Nat) : Edit := ⟨start, stop, start⟩

def delta (e : Edit) : Except Fault Int :=
  Word.checkSigned (Word.signed e.newEnd - Word.signed e.oldEnd)

def isWellFormed (e : Edit) : Bool := e.start ≤ e.oldEnd && e.start ≤ e.newEnd

def isVoid (e : Edit) : Bool := e.oldEnd == e.start && e.newEnd == e.start

/-- Changes a text and describes the change. Texts take fewer than `2 ^ 63` bytes. -/
def apply (text : String) (start stop : Nat) (replacement : String) :
    Except Fault (Edit × String) := do
  let edit ← replace start stop replacement.utf8ByteSize
  match Text.splice? text start stop replacement with
  | some changed =>
    if text.utf8ByteSize < Nat.pow 2 63 ∧ changed.utf8ByteSize < Nat.pow 2 63 then return (edit, changed)
    else throw .overflow
  | none => throw .badCut

end Edit

end ShaderTree
