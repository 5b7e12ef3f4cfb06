import ShaderTree.Fault

/-!
Ranges of byte offsets, from a start up to but without a stop.
-/
namespace ShaderTree

structure ByteRange where
  start : Nat
  stop : Nat
  deriving DecidableEq, Inhabited

namespace ByteRange

def ofBounds (start stop : Nat) : Except Fault ByteRange :=
  if start ≤ stop then .ok ⟨start, stop⟩ else .error .reversedRange

def empty (offset : Nat) : ByteRange := ⟨offset, offset⟩

def isEmpty (r : ByteRange) : Bool := r.start == r.stop

def contains (r s : ByteRange) : Bool := r.start ≤ s.start && s.stop ≤ r.stop

def cover (r s : ByteRange) : ByteRange := ⟨min r.start s.start, max r.stop s.stop⟩

def render (r : ByteRange) : String := s!"{r.start}..{r.stop}"

end ByteRange

end ShaderTree
