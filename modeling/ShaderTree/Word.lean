import ShaderTree.Fault

/-!
Checked arithmetic on machine words: a result that is no word of the width has no answer.
-/
namespace ShaderTree.Word

def add (bits a b : Nat) : Except Fault Nat :=
  if a + b < Nat.pow 2 bits then .ok (a + b) else .error .overflow

def sub (bits a b : Nat) : Except Fault Nat :=
  if b ≤ a ∧ a < Nat.pow 2 bits then .ok (a - b) else .error .overflow

/-- A word of 64 bits read with a sign. -/
def signed (n : Nat) : Int := ((n : Int) + Nat.pow 2 63) % Nat.pow 2 64 - Nat.pow 2 63

def checkSigned (i : Int) : Except Fault Int :=
  if -Nat.pow 2 63 ≤ i ∧ i < Nat.pow 2 63 then .ok i else .error .overflow

def unsigned (i : Int) : Nat := (i % Nat.pow 2 64).toNat

end ShaderTree.Word
