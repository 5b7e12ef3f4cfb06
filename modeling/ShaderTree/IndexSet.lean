/-!
Finite sets of numbers, kept as the bits of one number. The lemmas say what each operation does to
membership.
-/
namespace ShaderTree

structure IndexSet where
  bits : Nat
  deriving DecidableEq, Inhabited

namespace IndexSet

def empty : IndexSet := ⟨0⟩

def mem (s : IndexSet) (i : Nat) : Bool := s.bits.testBit i

def insert (s : IndexSet) (i : Nat) : IndexSet := ⟨s.bits ||| 1 <<< i⟩

def union (s t : IndexSet) : IndexSet := ⟨s.bits ||| t.bits⟩

def ofList (is : List Nat) : IndexSet := is.foldl insert empty

def below (s : IndexSet) (bound : Nat) : List Nat := (List.range bound).filter s.mem

@[simp] theorem mem_empty (i : Nat) : empty.mem i = false := by simp [empty, mem]

@[simp] theorem mem_union (s t : IndexSet) (i : Nat) :
    (s.union t).mem i = (s.mem i || t.mem i) := by simp [union, mem]

@[simp] theorem mem_insert (s : IndexSet) (i j : Nat) :
    (s.insert i).mem j = (s.mem j || decide (i = j)) := by
  simp [insert, mem, Nat.shiftLeft_eq, Nat.testBit_two_pow]

@[simp] theorem mem_below (s : IndexSet) (bound i : Nat) :
    i ∈ s.below bound ↔ i < bound ∧ s.mem i = true := by simp [below]

end IndexSet

end ShaderTree
